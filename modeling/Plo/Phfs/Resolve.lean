import Plo.Phfs.AliasRuns

/-!
From a handle back to the address of a file. The id of a handle is an index into the
table of files, the descriptor that a server gave, or none; what it is follows from the
device, which is not asked.
-/
namespace Plo.Phfs
variable {w : Nat}

/-- The file that `phfs_open` finds under the names it is given, on a raw device. -/
def DenotesFile (s : Tables w) (alias_ : CString) (name : Option CString) (file : File w) : Prop :=
  (∃ major minor, devGet s alias_ = .ok (major, minor, .raw)) ∧
    ∃ n, name = some n ∧ s.files.find? (·.alias_.name = n) = some file

/-- What `phfs_aliasAddrResolve` is to do with the handle of a call that was made in `s`. -/
def ResolvesRight (s : Tables w) (alias_ : CString) (name : Option CString)
    (res : Except Int (BitVec w)) : Prop :=
  ∀ addr, res = .ok addr ↔ ∃ file, DenotesFile s alias_ name file ∧ addr = file.addr

section Registrations
variable {devsCheck : BitVec 32 → BitVec 32 → Int} {s s' : Tables w}

theorem files_prefix_run (c : RegCall w) : s.files <+: (c.run devsCheck s).1.files := by
  cases c with
  | devReg alias_ major minor prot =>
      rcases devReg_cases devsCheck s alias_ major minor prot with
        ⟨res, -, h⟩ | ⟨name, p, hfull, -, -, -, h⟩ <;> rw [RegCall.run, h] <;>
          exact List.prefix_rfl
  | aliasReg alias_ addr size =>
      rcases aliasReg_cases alias_ addr size with ⟨res, -, h⟩ | ⟨name, hfull, -, -, h⟩
      · have hsame : ((RegCall.aliasReg alias_ addr size).run devsCheck s).1 = s := by
          rw [RegCall.run, h]
        exact hsame.symm ▸ List.prefix_rfl
      · rw [RegCall.run, h]
        exact List.prefix_append _ _

/-- Files are never taken out of the table. -/
theorem files_prefix {ok : Tables w → RegCall w → Prop}
    (h : Reachable (fun s c => (c.run devsCheck s).1) ok s s') : s.files <+: s'.files := by
  induction h with
  | init => exact List.prefix_rfl
  | step _ _ ih => exact ih.trans (files_prefix_run _)

end Registrations

section Open
variable {phoenixdOpen : Option CString → BitVec 32 → BitVec 32 → BitVec 32 → Int}
  {s s' : Tables w} {alias_ : CString} {name : Option CString} {flags : BitVec 32}
  {h₀ h : Handler}

/-- What a handle is that `phfs_open` gives. -/
theorem phfsOpen_cases (hopen : phfsOpen phoenixdOpen s alias_ name flags h₀ = (EOK, h)) :
    (∃ major minor, devGet s alias_ = .ok (major, minor, .phoenixd)) ∨
    (∃ major minor, devGet s alias_ = .ok (major, minor, .raw)) ∧
      ((name = none ∧ h.id = -1) ∨ ∃ n i file, name = some n ∧ h.id = BitVec.ofNat 32 i ∧
        s.files[i]? = some file ∧ s.files.find? (·.alias_.name = n) = some file) := by
  have hneg : ∀ {res : Int}, res < 0 → res ≠ EOK := fun hlt => Int.ne_of_lt hlt
  simp only [phfsOpen] at hopen
  split at hopen
  · rename_i hlt
    exact absurd (Prod.mk.inj hopen).1 (hneg hlt)
  · rename_i hnot
    obtain ⟨j, hj⟩ := Int.eq_ofNat_of_zero_le (Int.not_lt.mp hnot)
    obtain ⟨pd, hpd, hget⟩ := devGet_of_getHandlerId hj
    have hlt : j < 8 := (List.getElem?_eq_some_iff.mp hpd).1.trans_le s.devices_fit
    have hindex : (BitVec.ofInt 32 (getHandlerId s alias_)).toNat = j := by
      rw [hj, BitVec.ofInt_natCast, BitVec.toNat_ofNat, Nat.mod_eq_of_lt (by omega)]
    rw [hindex, hpd] at hopen
    simp only at hopen
    split at hopen
    · cases hopen
    · split at hopen
      · rename_i hprot
        rw [hprot] at hget
        exact Or.inl ⟨_, _, hget⟩
      · rename_i hprot
        rw [hprot] at hget
        refine Or.inr ⟨⟨_, _, hget⟩, ?_⟩
        split at hopen
        · cases hopen
          exact Or.inl ⟨rfl, rfl⟩
        · rename_i n
          split at hopen
          · rename_i hlt
            exact absurd (Prod.mk.inj hopen).1 (hneg hlt)
          · rename_i hnot
            cases hopen
            obtain ⟨i, hi⟩ := Int.eq_ofNat_of_zero_le (Int.not_lt.mp hnot)
            obtain ⟨file, hfile, hfound⟩ := find?_of_aliasId hi
            exact Or.inr ⟨n, i, file, rfl, by rw [hi, BitVec.ofInt_natCast], hfile, hfound⟩

theorem resolves_of_lt {i : Nat} {file : File w} (hi : h.id.toNat = i)
    (hfile : s.files[i]? = some file) : aliasAddrResolve s h = .ok file.addr := by
  have hlt : i < 32 := (List.getElem?_eq_some_iff.mp hfile).1.trans_le s.files_fit
  rw [aliasAddrResolve, hi, if_neg (show ¬ i ≥ 32 by omega), hfile]

theorem resolves_of_ge (hi : s.files.length ≤ h.id.toNat) :
    aliasAddrResolve s h = .error (-EINVAL) := by
  rw [aliasAddrResolve, List.getElem?_eq_none hi, ite_self]

/-- The address of a handle is right, after any registrations, exactly when it is not a
descriptor of a server that is also the number of a file. -/
theorem resolve_right_iff (devsCheck : BitVec 32 → BitVec 32 → Int)
    (hopen : phfsOpen phoenixdOpen s alias_ name flags h₀ = (EOK, h))
    (hrun : Reachable (fun s c => (RegCall.run devsCheck s c).1) (fun _ _ => True) s s') :
    ResolvesRight s alias_ name (aliasAddrResolve s' h) ↔
      ¬ ((∃ major minor, devGet s alias_ = .ok (major, minor, .phoenixd)) ∧
        h.id.toNat < s'.files.length) := by
  obtain ⟨later, hlater⟩ := files_prefix hrun
  have hle : s'.files.length ≤ 32 := s'.files_fit
  rcases phfsOpen_cases hopen with ⟨major, minor, hget⟩ | ⟨⟨major, minor, hget⟩, hname⟩
  · have hnone : ∀ file, ¬ DenotesFile s alias_ name file := by
      rintro file ⟨⟨_, _, hraw⟩, -⟩
      rw [hget] at hraw
      cases hraw
    cases Nat.lt_or_ge h.id.toNat s'.files.length with
    | inl hlt =>
        rw [resolves_of_lt rfl (List.getElem?_eq_getElem hlt)]
        refine iff_of_false (fun hright => ?_) (fun hcon => hcon ⟨⟨major, minor, hget⟩, hlt⟩)
        obtain ⟨file, hfile, -⟩ := (hright _).mp rfl
        exact hnone file hfile
    | inr hge =>
        rw [resolves_of_ge hge]
        refine iff_of_true (fun addr => ⟨nofun, ?_⟩) (fun hcon => absurd hcon.2 (by omega))
        rintro ⟨file, hfile, -⟩
        exact absurd hfile (hnone file)
  · refine iff_of_true ?_ ?_
    · rcases hname with ⟨rfl, hid⟩ | ⟨n, i, file, rfl, hid, hfile, hfound⟩
      · have hid' : h.id.toNat = 2 ^ 32 - 1 := by rw [hid]; rfl
        rw [resolves_of_ge (by omega)]
        refine fun addr => ⟨nofun, ?_⟩
        rintro ⟨file, ⟨-, n, hn, -⟩, -⟩
        cases hn
      · have hi : i < s.files.length := (List.getElem?_eq_some_iff.mp hfile).1
        have hid' : h.id.toNat = i := by
          have hlen : s.files.length ≤ 32 := s.files_fit
          rw [hid, BitVec.toNat_ofNat, Nat.mod_eq_of_lt (by omega)]
        have hfile' : s'.files[i]? = some file := by
          rw [← hlater, List.getElem?_append_left hi, hfile]
        rw [resolves_of_lt hid' hfile']
        refine fun addr => ⟨fun heq => ?_, ?_⟩
        · exact ⟨file, ⟨⟨major, minor, hget⟩, n, rfl, hfound⟩, (Except.ok.inj heq).symm⟩
        · rintro ⟨file', ⟨-, n', hn, hfound'⟩, rfl⟩
          cases hn
          rw [hfound] at hfound'
          cases hfound'
          rfl
    · rintro ⟨⟨_, _, hphd⟩, -⟩
      rw [hget] at hphd
      cases hphd

end Open

/-- A raw device with two files, and a server. -/
def twoFiles : Tables 32 :=
  ⟨[⟨⟨⟨[0x64, 0x31], by decide⟩, by decide⟩, 1, 0, .raw⟩,
      ⟨⟨⟨[0x73, 0x31], by decide⟩, by decide⟩, 0, 0, .phoenixd⟩],
    [⟨⟨⟨[0x66, 0x31], by decide⟩, by decide⟩, 0x1000, 16⟩,
      ⟨⟨⟨[0x66, 0x32], by decide⟩, by decide⟩, 0x2000, 16⟩], by decide, by decide⟩

theorem resolve_right_iff_second_file :
    phfsOpen (fun _ _ _ _ => 1) twoFiles ⟨[0x64, 0x31], by decide⟩
        (some ⟨[0x66, 0x32], by decide⟩) 0 ⟨0, 0⟩ = (EOK, ⟨0, 1⟩) ∧
      ResolvesRight twoFiles ⟨[0x64, 0x31], by decide⟩ (some ⟨[0x66, 0x32], by decide⟩)
        (aliasAddrResolve twoFiles ⟨0, 1⟩) := by
  have hopen : phfsOpen (fun _ _ _ _ => 1) twoFiles ⟨[0x64, 0x31], by decide⟩
      (some ⟨[0x66, 0x32], by decide⟩) 0 ⟨0, 0⟩ = (EOK, ⟨0, 1⟩) := rfl
  refine ⟨hopen, (resolve_right_iff (fun _ _ => 0) hopen .init).mpr ?_⟩
  rintro ⟨⟨_, _, hphd⟩, -⟩
  cases hphd

/-- The server gives the descriptor 1, which is also the number of a file. -/
theorem descriptor_resolved_as_file :
    phfsOpen (fun _ _ _ _ => 1) twoFiles ⟨[0x73, 0x31], by decide⟩
        (some ⟨[0x66, 0x33], by decide⟩) 0 ⟨0, 0⟩ = (EOK, ⟨1, 1⟩) ∧
      aliasAddrResolve twoFiles ⟨1, 1⟩ = .ok 0x2000 ∧
      ¬ ResolvesRight twoFiles ⟨[0x73, 0x31], by decide⟩ (some ⟨[0x66, 0x33], by decide⟩)
        (aliasAddrResolve twoFiles ⟨1, 1⟩) := by
  refine ⟨rfl, rfl, fun hright => ?_⟩
  obtain ⟨file, ⟨⟨_, _, hraw⟩, -⟩, -⟩ := (hright 0x2000).mp rfl
  cases hraw

end Plo.Phfs
