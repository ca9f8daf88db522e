import Mathlib.Data.List.Nodup
import Plo.Phfs.Aliases

/-!
Sequences of registrations. An alias the field can hold is found again and stays
the only one of its name; a longer one is stored under its first bytes, is not
found under the name it was given, and may meet another one with the same first
bytes.
-/
namespace Plo.Phfs
variable {w : Nat}

section Names

theorem findIdx?_name_eq_none_iff (names : List CString) (name : CString) :
    names.findIdx? (name = ·) = none ↔ name ∉ names := by
  rw [List.findIdx?_eq_none_iff]
  constructor
  · intro h hmem
    simpa using h name hmem
  · intro h x hx
    exact decide_eq_false fun heq => h (heq ▸ hx)

theorem aliasId_of_not_mem {names : List CString} {name : CString} (h : name ∉ names) :
    aliasId names name = -EINVAL := by
  rw [aliasId, (findIdx?_name_eq_none_iff names name).mpr h]

theorem aliasId_nonneg_iff (names : List CString) (name : CString) :
    0 ≤ aliasId names name ↔ name ∈ names := by
  cases hfind : names.findIdx? (name = ·) with
  | none =>
      have hmem := (findIdx?_name_eq_none_iff names name).mp hfind
      rw [aliasId_of_not_mem hmem]
      exact iff_of_false (by decide) hmem
  | some i =>
      have hmem : name ∈ names := by
        by_contra hnot
        rw [(findIdx?_name_eq_none_iff names name).mpr hnot] at hfind
        cases hfind
      exact iff_of_true (by simp [aliasId, hfind]) hmem

theorem findIdx?_of_aliasId {names : List CString} {name : CString} {i : Nat}
    (h : aliasId names name = i) : names.findIdx? (name = ·) = some i := by
  cases hfind : names.findIdx? (name = ·) with
  | none =>
      rw [aliasId, hfind] at h
      simp only [EINVAL] at h
      omega
  | some j =>
      rw [aliasId, hfind] at h
      simp only [Int.natCast_inj] at h
      rw [h]

theorem aliasId_append {names : List CString} {name : CString} (h : name ∈ names)
    (more : List CString) : aliasId (names ++ more) name = aliasId names name := by
  cases hfind : names.findIdx? (name = ·) with
  | none => exact absurd h ((findIdx?_name_eq_none_iff names name).mp hfind)
  | some i => simp [aliasId, List.findIdx?_append, hfind]

theorem aliasId_concat {names : List CString} {name : CString} (h : name ∉ names) :
    aliasId (names ++ [name]) name = names.length := by
  have hfind := (findIdx?_name_eq_none_iff names name).mpr h
  simp [aliasId, List.findIdx?_append, hfind]

theorem aliasId_lt {names : List CString} {name : CString} {i : Nat}
    (h : aliasId names name = i) : i < names.length :=
  (List.findIdx?_eq_some_iff_findIdx_eq.mp (findIdx?_of_aliasId h)).1

/-- The entry at the index of an alias is the first one under it. -/
theorem find?_of_aliasId {α : Type} {entries : List α} {key : α → CString} {name : CString}
    {i : Nat} (h : aliasId (entries.map key) name = i) :
    ∃ e, entries[i]? = some e ∧ entries.find? (key · = name) = some e := by
  have hfind : entries.findIdx? (fun e => name = key e) = some i := by
    have hid := findIdx?_of_aliasId h
    rwa [List.findIdx?_map] at hid
  obtain ⟨hi, hname, hfirst⟩ := List.findIdx?_eq_some_iff_getElem.mp hfind
  refine ⟨entries[i], List.getElem?_eq_getElem hi, ?_⟩
  rw [List.find?_eq_some_iff_getElem]
  refine ⟨decide_eq_true (of_decide_eq_true hname).symm, i, hi, rfl, ?_⟩
  intro j hj
  have hne := hfirst j hj
  rw [decide_eq_true_iff] at hne
  exact Bool.not_eq_true' _ ▸ decide_eq_false (Ne.symm hne)

theorem storeAlias_name {sz : Nat} (hsz : 0 < sz) {name : CString}
    (h : name.bytes.length < sz) : (storeAlias hsz name).name = name := by
  have hbytes : (storeAlias hsz name).name.bytes = name.bytes := by
    rw [storeAlias, ofBuffer_aliasField, List.take_of_length_le (by omega)]
  cases hname : (storeAlias hsz name).name
  cases name
  simp only [hname] at hbytes
  subst hbytes
  rfl

end Names

/-- A registration. -/
inductive RegCall (w : Nat)
  | devReg (alias_ : Option CString) (major minor : BitVec 32) (prot : Option CString)
  | aliasReg (alias_ : Option CString) (addr size : BitVec w)

section Calls
variable (devsCheck : BitVec 32 → BitVec 32 → Int)
  (phoenixdOpen : Option CString → BitVec 32 → BitVec 32 → BitVec 32 → Int)

def RegCall.run (s : Tables w) : RegCall w → Tables w × Int
  | .devReg alias_ major minor prot => Phfs.devReg devsCheck s alias_ major minor prot
  | .aliasReg alias_ addr size => Phfs.aliasReg s alias_ addr size

/-- The alias is one the field can hold. -/
def RegCall.Fits : RegCall w → Prop
  | .devReg alias_ _ _ _ => ∀ name, alias_ = some name → name.bytes.length < 8
  | .aliasReg alias_ _ _ => ∀ name, alias_ = some name → name.bytes.length < 34

/-- What was registered is what the lookups find under its alias. -/
def RegCall.Found (s : Tables w) : RegCall w → Prop
  | .devReg alias_ major minor prot => ∀ name, alias_ = some name →
      ∃ i : Nat, ∃ pd, getHandlerId s name = i ∧ s.devices[i]? = some pd ∧ pd.major = major ∧
        pd.minor = minor ∧ setProt prot = some pd.prot ∧
        devGet s name = .ok (pd.major, pd.minor, pd.prot)
  | .aliasReg alias_ addr size => ∀ name, alias_ = some name →
      ∃ i : Nat, ∃ file, getAliasId s name = i ∧ s.files[i]? = some file ∧ file.addr = addr ∧
        file.size = size ∧
        ∀ dev major minor flags handler, devGet s dev = .ok (major, minor, .raw) →
          ∃ pd, phfsOpen phoenixdOpen s dev (some name) flags handler =
              (EOK, ⟨pd, BitVec.ofNat 32 i⟩) ∧
            aliasAddrResolve s ⟨pd, BitVec.ofNat 32 i⟩ = .ok addr

/-- Every alias that was found is found with the same entry. -/
structure Unchanged (s s' : Tables w) : Prop where
  devices : ∀ name, 0 ≤ getHandlerId s name →
    getHandlerId s' name = getHandlerId s name ∧ devGet s' name = devGet s name ∧
      s'.devices[(getHandlerId s name).toNat]? = s.devices[(getHandlerId s name).toNat]?
  files : ∀ name, 0 ≤ getAliasId s name →
    getAliasId s' name = getAliasId s name ∧
      s'.files[(getAliasId s name).toNat]? = s.files[(getAliasId s name).toNat]?

structure Distinct (s : Tables w) : Prop where
  devices : s.deviceNames.Nodup
  files : s.fileNames.Nodup

end Calls

section Steps
variable {devsCheck : BitVec 32 → BitVec 32 → Int}
  {phoenixdOpen : Option CString → BitVec 32 → BitVec 32 → BitVec 32 → Int} {s : Tables w}

/-- A registration that fails changes nothing; one that succeeds adds an entry
under an alias that was not found. -/
theorem devReg_cases (devsCheck : BitVec 32 → BitVec 32 → Int) (s : Tables w)
    (alias_ : Option CString) (major minor : BitVec 32) (prot : Option CString) :
    (∃ res < 0, devReg devsCheck s alias_ major minor prot = (s, res)) ∨
    ∃ name p h, alias_ = some name ∧ name ∉ s.deviceNames ∧ setProt prot = some p ∧
      devReg devsCheck s alias_ major minor prot =
        (s.addDevice ⟨storeAlias (by decide) name, major, minor, p⟩ h, EOK) := by
  have hneg : (-EINVAL : Int) < 0 := by decide
  cases alias_ with
  | none => exact Or.inl ⟨_, hneg, rfl⟩
  | some name =>
      simp only [devReg]
      split
      · exact Or.inl ⟨_, hneg, rfl⟩
      · next hroom =>
        split
        · exact Or.inl ⟨_, hneg, rfl⟩
        · split
          · exact Or.inl ⟨_, hneg, rfl⟩
          · next hid =>
            rw [getHandlerId, ge_iff_le, aliasId_nonneg_iff] at hid
            cases hprot : setProt prot with
            | none => exact Or.inl ⟨_, hneg, rfl⟩
            | some p => exact Or.inr ⟨name, p, hroom, rfl, hid, rfl, rfl⟩

theorem aliasReg_cases (alias_ : Option CString) (addr size : BitVec w) :
    (∃ res < 0, aliasReg s alias_ addr size = (s, res)) ∨
    ∃ name h, alias_ = some name ∧ name ∉ s.fileNames ∧
      aliasReg s alias_ addr size =
        (s.addFile ⟨storeAlias (by decide) name, addr, size⟩ h, EOK) := by
  have hneg : (-EINVAL : Int) < 0 := by decide
  cases alias_ with
  | none => exact Or.inl ⟨_, hneg, rfl⟩
  | some name =>
      simp only [aliasReg]
      split
      · exact Or.inl ⟨_, hneg, rfl⟩
      · next hroom =>
        split
        · exact Or.inl ⟨_, hneg, rfl⟩
        · next hid =>
          rw [getAliasId, ge_iff_le, aliasId_nonneg_iff] at hid
          exact Or.inr ⟨name, hroom, rfl, hid, rfl⟩

theorem deviceNames_addDevice (pd : Device) (h : ¬ s.devices.length ≥ SIZE_PHFS_HANDLERS) :
    (s.addDevice pd h).deviceNames = s.deviceNames ++ [pd.alias_.name] := by
  simp only [Tables.addDevice, Tables.deviceNames, List.map_append, List.map_cons, List.map_nil]

theorem fileNames_addFile (file : File w) (h : ¬ s.files.length ≥ SIZE_PHFS_ALIASES) :
    (s.addFile file h).fileNames = s.fileNames ++ [file.alias_.name] := by
  simp only [Tables.addFile, Tables.fileNames, List.map_append, List.map_cons, List.map_nil]

theorem distinct_addDevice {pd : Device} (h : ¬ s.devices.length ≥ SIZE_PHFS_HANDLERS)
    (hnew : pd.alias_.name ∉ s.deviceNames) (hs : Distinct s) : Distinct (s.addDevice pd h) := by
  refine ⟨?_, hs.files⟩
  rw [deviceNames_addDevice, ← List.concat_eq_append]
  exact List.Nodup.concat hnew hs.devices

theorem distinct_addFile {file : File w} (h : ¬ s.files.length ≥ SIZE_PHFS_ALIASES)
    (hnew : file.alias_.name ∉ s.fileNames) (hs : Distinct s) : Distinct (s.addFile file h) := by
  refine ⟨hs.devices, ?_⟩
  rw [fileNames_addFile, ← List.concat_eq_append]
  exact List.Nodup.concat hnew hs.files

/-- `phfs_devGet` and `phfs_getHandlerId` stop at the same device. -/
theorem devGet_of_getHandlerId {name : CString} {i : Nat} (h : getHandlerId s name = i) :
    ∃ pd, s.devices[i]? = some pd ∧ devGet s name = .ok (pd.major, pd.minor, pd.prot) := by
  obtain ⟨pd, hpd, hfound⟩ := find?_of_aliasId h
  exact ⟨pd, hpd, by rw [devGet, hfound]⟩

theorem unchanged_addDevice (pd : Device) (h : ¬ s.devices.length ≥ SIZE_PHFS_HANDLERS) :
    Unchanged s (s.addDevice pd h) := by
  refine ⟨?_, fun name _ => ⟨rfl, rfl⟩⟩
  intro name hid
  have hmem := (aliasId_nonneg_iff _ _).mp hid
  have hsame : getHandlerId (s.addDevice pd h) name = getHandlerId s name := by
    rw [getHandlerId, deviceNames_addDevice, aliasId_append hmem]
    rfl
  obtain ⟨i, hi⟩ : ∃ i : Nat, getHandlerId s name = i := Int.eq_ofNat_of_zero_le hid
  have hlt : i < s.devices.length := by simpa [Tables.deviceNames] using aliasId_lt hi
  have hentry : (s.addDevice pd h).devices[i]? = s.devices[i]? :=
    List.getElem?_append_left hlt
  obtain ⟨d, hd, hget⟩ := devGet_of_getHandlerId hi
  obtain ⟨d', hd', hget'⟩ := devGet_of_getHandlerId (hsame.trans hi)
  rw [hentry, hd] at hd'
  cases hd'
  rw [hi]
  exact ⟨hsame.trans hi, hget'.trans hget.symm, hentry⟩

theorem unchanged_addFile (file : File w) (h : ¬ s.files.length ≥ SIZE_PHFS_ALIASES) :
    Unchanged s (s.addFile file h) := by
  refine ⟨fun name _ => ⟨rfl, rfl, rfl⟩, ?_⟩
  intro name hid
  have hmem := (aliasId_nonneg_iff _ _).mp hid
  have hsame : getAliasId (s.addFile file h) name = getAliasId s name := by
    rw [getAliasId, fileNames_addFile, aliasId_append hmem]
    rfl
  obtain ⟨i, hi⟩ : ∃ i : Nat, getAliasId s name = i := Int.eq_ofNat_of_zero_le hid
  have hlt : i < s.files.length := by simpa [Tables.fileNames] using aliasId_lt hi
  rw [hi]
  exact ⟨hsame.trans hi, List.getElem?_append_left hlt⟩

/-- A device is found under its alias exactly when the field holds the alias. -/
theorem found_addDevice {name : CString} {major minor : BitVec 32} {prot : Option CString}
    {p : Prot} (h : ¬ s.devices.length ≥ SIZE_PHFS_HANDLERS) (hnew : name ∉ s.deviceNames)
    (hprot : setProt prot = some p) :
    (RegCall.devReg (some name) major minor prot).Found phoenixdOpen
        (s.addDevice ⟨storeAlias (by decide) name, major, minor, p⟩ h) ↔
      (RegCall.devReg (w := w) (some name) major minor prot).Fits := by
  constructor
  · intro hfound _ heq
    cases heq
    obtain ⟨i, pd, hid, -⟩ := hfound name rfl
    have hmem := (aliasId_nonneg_iff _ _).mp (hid ▸ Int.natCast_nonneg i : 0 ≤ getHandlerId _ name)
    obtain ⟨d, -, rfl⟩ := List.mem_map.mp hmem
    exact d.alias_.fits
  · intro hfits _ heq
    cases heq
    have hname := storeAlias_name (by decide : 0 < 8) (hfits name rfl)
    have hid : getHandlerId (s.addDevice ⟨storeAlias (by decide) name, major, minor, p⟩ h) name =
        s.devices.length := by
      rw [getHandlerId, deviceNames_addDevice, hname, aliasId_concat hnew]
      simp [Tables.deviceNames]
    have hentry : (s.addDevice ⟨storeAlias (by decide) name, major, minor, p⟩ h).devices[
        s.devices.length]? = some ⟨storeAlias (by decide) name, major, minor, p⟩ :=
      List.getElem?_concat_length
    obtain ⟨pd, hpd, hget⟩ := devGet_of_getHandlerId hid
    rw [hentry] at hpd
    cases hpd
    exact ⟨_, _, hid, hentry, rfl, rfl, hprot, hget⟩

/-- A file under a known alias is opened on every raw device. -/
theorem phfsOpen_raw
    (phoenixdOpen : Option CString → BitVec 32 → BitVec 32 → BitVec 32 → Int)
    {dev name : CString} {major minor : BitVec 32} {i : Nat}
    (hdev : devGet s dev = .ok (major, minor, .raw)) (hid : getAliasId s name = i)
    (flags : BitVec 32) (handler : Handler) :
    ∃ pd, phfsOpen phoenixdOpen s dev (some name) flags handler =
      (EOK, ⟨pd, BitVec.ofNat 32 i⟩) := by
  have hmem : dev ∈ s.deviceNames := by
    by_contra hnot
    have hnone : s.devices.find? (·.alias_.name = dev) = none := by
      rw [List.find?_eq_none]
      intro d hd heq
      exact hnot (List.mem_map.mpr ⟨d, hd, of_decide_eq_true heq⟩)
    rw [devGet, hnone] at hdev
    cases hdev
  obtain ⟨j, hj⟩ : ∃ j : Nat, getHandlerId s dev = j :=
    Int.eq_ofNat_of_zero_le ((aliasId_nonneg_iff _ _).mpr hmem)
  obtain ⟨d, hd, hget⟩ := devGet_of_getHandlerId hj
  rw [hdev] at hget
  have hraw : d.prot = .raw := by
    simp only [Except.ok.injEq, Prod.mk.injEq] at hget
    exact hget.2.2.symm
  have hlt : j < 8 := by
    have hlen : j < s.devices.length := by simpa [Tables.deviceNames] using aliasId_lt hj
    exact Nat.lt_of_lt_of_le hlen s.devices_fit
  have hpd : (BitVec.ofNat 32 j).toNat = j := by
    rw [BitVec.toNat_ofNat, Nat.mod_eq_of_lt (by omega)]
  refine ⟨BitVec.ofNat 32 j, ?_⟩
  have hnat (n : Nat) : ¬ (n : Int) < 0 := by omega
  simp only [phfsOpen, hj, if_neg (hnat j), BitVec.ofInt_natCast, hpd, hd, hraw, hid,
    if_neg (hnat i), ne_eq, not_true_eq_false, and_false, if_false]

theorem found_addFile {name : CString} {addr size : BitVec w}
    (h : ¬ s.files.length ≥ SIZE_PHFS_ALIASES) (hnew : name ∉ s.fileNames) :
    (RegCall.aliasReg (some name) addr size).Found phoenixdOpen
        (s.addFile ⟨storeAlias (by decide) name, addr, size⟩ h) ↔
      (RegCall.aliasReg (some name) addr size).Fits := by
  constructor
  · intro hfound _ heq
    cases heq
    obtain ⟨i, file, hid, -⟩ := hfound name rfl
    have hmem := (aliasId_nonneg_iff _ _).mp (hid ▸ Int.natCast_nonneg i : 0 ≤ getAliasId _ name)
    obtain ⟨f, -, rfl⟩ := List.mem_map.mp hmem
    exact f.alias_.fits
  · intro hfits _ heq
    cases heq
    have hname := storeAlias_name (by decide : 0 < 34) (hfits name rfl)
    have hid : getAliasId (s.addFile ⟨storeAlias (by decide) name, addr, size⟩ h) name =
        s.files.length := by
      rw [getAliasId, fileNames_addFile, hname, aliasId_concat hnew]
      simp [Tables.fileNames]
    have hentry : (s.addFile ⟨storeAlias (by decide) name, addr, size⟩ h).files[
        s.files.length]? = some ⟨storeAlias (by decide) name, addr, size⟩ :=
      List.getElem?_concat_length
    refine ⟨_, _, hid, hentry, rfl, rfl, ?_⟩
    intro dev major minor flags handler hdev
    obtain ⟨pd, hopen⟩ := phfsOpen_raw phoenixdOpen hdev hid flags handler
    refine ⟨pd, hopen, ?_⟩
    have hnat : (BitVec.ofNat 32 s.files.length).toNat = s.files.length := by
      have hroom : s.files.length < 32 := Nat.lt_of_not_le h
      rw [BitVec.toNat_ofNat, Nat.mod_eq_of_lt (by omega)]
    simp only [aliasAddrResolve, hnat, if_neg h, hentry]

/-- In a state with distinct aliases a registration that succeeds is found again,
changes no other lookup and keeps the aliases distinct exactly when the field
holds the alias. -/
theorem registered_iff
    (phoenixdOpen : Option CString → BitVec 32 → BitVec 32 → BitVec 32 → Int)
    (hs : Distinct s) (c : RegCall w) (hok : (c.run devsCheck s).2 = EOK) :
    c.Found phoenixdOpen (c.run devsCheck s).1 ∧ Unchanged s (c.run devsCheck s).1 ∧
        Distinct (c.run devsCheck s).1 ↔ c.Fits := by
  cases c with
  | devReg alias_ major minor prot =>
      cases devReg_cases devsCheck s alias_ major minor prot with
      | inl hfail =>
          obtain ⟨res, hneg, hrun⟩ := hfail
          rw [RegCall.run, hrun] at hok
          exact absurd hok (Int.ne_of_lt hneg)
      | inr hdone =>
          obtain ⟨name, p, h, rfl, hnew, hprot, hrun⟩ := hdone
          simp only [RegCall.run, hrun]
          rw [found_addDevice h hnew hprot]
          refine ⟨fun hall => hall.1, fun hfits => ⟨hfits, unchanged_addDevice _ h, ?_⟩⟩
          have hname := storeAlias_name (by decide : 0 < 8) (hfits name rfl)
          exact distinct_addDevice h (by rwa [hname]) hs
  | aliasReg alias_ addr size =>
      cases aliasReg_cases (s := s) alias_ addr size with
      | inl hfail =>
          obtain ⟨res, hneg, hrun⟩ := hfail
          rw [RegCall.run, hrun] at hok
          exact absurd hok (Int.ne_of_lt hneg)
      | inr hdone =>
          obtain ⟨name, h, rfl, hnew, hrun⟩ := hdone
          simp only [RegCall.run, hrun]
          rw [found_addFile h hnew]
          refine ⟨fun hall => hall.1, fun hfits => ⟨hfits, unchanged_addFile _ h, ?_⟩⟩
          have hname := storeAlias_name (by decide : 0 < 34) (hfits name rfl)
          exact distinct_addFile h (by rwa [hname]) hs

theorem distinct_run (c : RegCall w) (hfits : c.Fits) (hs : Distinct s) :
    Distinct (c.run devsCheck s).1 := by
  by_cases hok : (c.run devsCheck s).2 = EOK
  · exact ((registered_iff (fun _ _ _ _ => 0) hs c hok).mpr hfits).2.2
  · have hsame : (c.run devsCheck s).1 = s := by
      cases c with
      | devReg alias_ major minor prot =>
          cases devReg_cases devsCheck s alias_ major minor prot with
          | inl hfail =>
              obtain ⟨res, -, hrun⟩ := hfail
              rw [RegCall.run, hrun]
          | inr hdone =>
              obtain ⟨name, p, h, -, -, -, hrun⟩ := hdone
              exact absurd (by rw [RegCall.run, hrun]) hok
      | aliasReg alias_ addr size =>
          cases aliasReg_cases (s := s) alias_ addr size with
          | inl hfail =>
              obtain ⟨res, -, hrun⟩ := hfail
              rw [RegCall.run, hrun]
          | inr hdone =>
              obtain ⟨name, h, -, -, hrun⟩ := hdone
              exact absurd (by rw [RegCall.run, hrun]) hok
    rwa [hsame]

end Steps

/-- After any registrations of aliases the fields can hold, the aliases are
distinct, and a further one that succeeds is found again without touching the
others exactly when its field holds the alias. -/
theorem fitting_aliases_are_found (devsCheck : BitVec 32 → BitVec 32 → Int)
    (phoenixdOpen : Option CString → BitVec 32 → BitVec 32 → BitVec 32 → Int) {s : Tables w}
    (hrun : Reachable (fun s c => (c.run devsCheck s).1) (fun _ c => RegCall.Fits c) Tables.empty s) :
    Distinct s ∧ ∀ c : RegCall w, (c.run devsCheck s).2 = EOK →
      (c.Found phoenixdOpen (c.run devsCheck s).1 ∧ Unchanged s (c.run devsCheck s).1 ∧
        Distinct (c.run devsCheck s).1 ↔ c.Fits) := by
  have hs : Distinct s := by
    have hinit : Distinct (Tables.empty : Tables w) := ⟨List.nodup_nil, List.nodup_nil⟩
    exact hrun.invariant hinit fun s c hs hfits => distinct_run c hfits hs
  exact ⟨hs, registered_iff phoenixdOpen hs⟩

/-- A registration of a device under the letters from `a` on, seven or eight of them. -/
def register (letters : List UInt8) (h : 0 ∉ letters) : RegCall 32 :=
  .devReg (some ⟨letters, h⟩) 1 0 none

def sevenLetters : RegCall 32 :=
  register [0x61, 0x62, 0x63, 0x64, 0x65, 0x66, 0x67] (by decide)

def eightLetters : RegCall 32 :=
  register [0x61, 0x62, 0x63, 0x64, 0x65, 0x66, 0x67, 0x68] (by decide)

theorem fitting_aliases_are_found_seven :
    (sevenLetters.run (fun _ _ => 0) Tables.empty).2 = EOK ∧
      sevenLetters.Found (fun _ _ _ _ => 0) (sevenLetters.run (fun _ _ => 0) Tables.empty).1 := by
  have hok : (sevenLetters.run (fun _ _ => 0) Tables.empty).2 = EOK := by decide
  have hfits : sevenLetters.Fits := by
    intro name hname
    cases hname
    decide
  exact ⟨hok, (((fitting_aliases_are_found (fun _ _ => 0) (fun _ _ _ _ => 0) .init).2
    sevenLetters hok).mpr hfits).1⟩

/-- Eight letters are accepted and not found; seven and then eight letters are
both accepted and stored under one name. -/
theorem long_alias_lost :
    (eightLetters.run (fun _ _ => 0) Tables.empty).2 = EOK ∧
      ¬ eightLetters.Found (fun _ _ _ _ => 0) (eightLetters.run (fun _ _ => 0) Tables.empty).1 ∧
      (eightLetters.run (fun _ _ => 0) (sevenLetters.run (fun _ _ => 0) Tables.empty).1).2 = EOK ∧
      ¬ Distinct (eightLetters.run (fun _ _ => 0)
        (sevenLetters.run (fun _ _ => 0) Tables.empty).1).1 := by
  refine ⟨by decide, ?_, by decide, ?_⟩
  · intro hfound
    obtain ⟨i, pd, hid, -⟩ := hfound _ rfl
    have hnone : getHandlerId (eightLetters.run (fun _ _ => 0) Tables.empty).1
        ⟨[0x61, 0x62, 0x63, 0x64, 0x65, 0x66, 0x67, 0x68], by decide⟩ = -22 := by decide
    rw [hnone] at hid
    omega
  · intro hdistinct
    exact absurd hdistinct.devices (by decide)

end Plo.Phfs
