import Plo.Cmds.MemcryptArgs

/-!
Where the bytes of a key come from. A region is set up once every source has answered
without an error, and nothing looks at how many bytes a device gave, so that a short
answer leaves the rest of the key as it was.
-/
namespace Plo.Cmds.Memcrypt
open Lib
variable {σ : Type}

section Source
variable (devs : Devices σ)

/-- What the fuses give, unless one of them cannot be read. -/
def otpBytes : Nat → σ → BitVec 32 → Option (List UInt8) × σ
  | 0, s, _ => (some [], s)
  | fuses + 1, s, fuse =>
    match devs.otpRead s fuse with
    | ((ret, val), s) =>
      if ret < 0 then (none, s)
      else
        match otpBytes fuses s (fuse + 1) with
        | (bytes, s) => (bytes.map (wordBytes val ++ ·), s)

/-- The key that is written out in the argument of an option. -/
def explicitKey (arg : CString) : Option (List UInt8) :=
  (consumePrefix arg "x:".toUTF8.toList).bind (hexKey · maxKeySize)

/-- What the source that an option names gives when it is asked for the size of the
buffer, unless it cannot be read. -/
def sourceBytes (s : σ) (arg : CString) (buf : Buffer) : Option (List UInt8) × σ :=
  match buf.type with
  | .explicit => (explicitKey arg, s)
  | .otp =>
    if buf.size.toNat % 4 ≠ 0 then (none, s) else otpBytes devs (buf.size.toNat / 4) s buf.offset
  | .device =>
    match devs.devsRead s buf.major buf.minor buf.offset buf.size.toNat with
    | (answer, s) => (if answer.ret < 0 then none else some answer.stored, s)
  | .invalid => (none, s)

/-- All `n` bytes of the data were supplied by the source. -/
def Supplied (s : σ) (arg : CString) (buf : Buffer) (n : Nat) (data : Nat → UInt8) : Prop :=
  ∃ bytes, (sourceBytes devs s arg buf).1 = some bytes ∧ bytes.length = n ∧
    ∀ i, i < n → data i = bytes.getD i 0

/-- The key, and the initial value if one was given, come complete from their sources. -/
structure Complete (s : σ) (rets : List Returned) (params : Params) (setup : Setup) : Prop where
  key : ∃ arg n, lastArg 'k'.toUInt8 rets = some arg ∧ setup.args.algo.keySize = some n ∧
    Supplied devs s arg params.key n setup.key
  iv : ∀ arg, lastArg 'i'.toUInt8 rets = some arg → ∃ karg iv,
    lastArg 'k'.toUInt8 rets = some karg ∧ setup.iv = some iv ∧
      Supplied devs (sourceBytes devs s karg params.key).2 arg params.iv setup.ivSize.toNat iv

/-- A region is set up only with complete keys, and otherwise the command fails. -/
def SetsUpComplete (s : σ) (argv : List CString) : Prop :=
  ∃ outcome, cmdMemcrypt devs s argv = some outcome ∧
    (outcome.setup = none → outcome.ret ≠ CMD_EXIT_SUCCESS) ∧
    ∀ setup, outcome.setup = some setup → ∃ rets s' params,
      Calls argv options.text getoptReset rets s' ∧ parseArgs argv = some (.ok params) ∧
        Complete devs s rets params setup

/-- The source answers without an error. -/
def Answers (s : σ) (buf : Buffer) : Prop :=
  match buf.type with
  | .explicit => True
  | .otp => buf.size.toNat % 4 = 0 ∧ (otpBytes devs (buf.size.toNat / 4) s buf.offset).1.isSome
  | .device => 0 ≤ (devs.devsRead s buf.major buf.minor buf.offset buf.size.toNat).1.ret
  | .invalid => False

/-- The device gives fewer bytes than it is asked for, or a prefix is hidden among the
digits of the argument. -/
def FallsShort (s : σ) (arg : CString) (buf : Buffer) : Prop :=
  match buf.type with
  | .explicit => ∃ string, consumePrefix arg "x:".toUTF8.toList = some string ∧
      HidesPrefix string maxKeySize
  | .device =>
    (devs.devsRead s buf.major buf.minor buf.offset buf.size.toNat).1.stored.length < buf.size.toNat
  | _ => False

/-- The arguments pass what the command checks, and no source answers with an error. -/
structure Passes (s : σ) (karg : CString) (params : Params) : Prop where
  major : params.major = DEV_CRYP_STORAGE
  check : 0 ≤ devs.devsCheck s params.major params.minor
  keySize : params.args.algo.keySize = some params.key.size.toNat
  key : Answers devs s params.key
  iv : params.iv.type ≠ .invalid → params.iv.size.toNat ≤ maxKeySize ∧
    Answers devs (sourceBytes devs s karg params.key).2 params.iv

/-- When everything passes, no source falls short. -/
def SourcesDeliver (s : σ) (argv : List CString) : Prop :=
  ∀ rets s' params karg, Calls argv options.text getoptReset rets s' →
    parseArgs argv = some (.ok params) → lastArg 'k'.toUInt8 rets = some karg →
    Passes devs s karg params →
      ¬FallsShort devs s karg params.key ∧
        ∀ arg, lastArg 'i'.toUInt8 rets = some arg →
          ¬FallsShort devs (sourceBytes devs s karg params.key).2 arg params.iv

end Source

section Read
variable {devs : Devices σ} {s : σ} {arg : CString} {buf : Buffer}

theorem otpBytes_length (fuses : Nat) (s : σ) (fuse : BitVec 32) {bytes : List UInt8}
    (h : (otpBytes devs fuses s fuse).1 = some bytes) : bytes.length = 4 * fuses := by
  induction fuses generalizing s fuse bytes with
  | zero =>
      cases h
      rfl
  | succ fuses ih =>
      rw [otpBytes] at h
      split at h
      · next ret val s' _ =>
        split at h
        · cases h
        · obtain ⟨rest, hrest, rfl⟩ := Option.map_eq_some_iff.mp h
          rw [List.length_append, ih s' (fuse + 1) hrest]
          simp only [wordBytes, List.length_map, List.length_range]
          omega

/-- The loop over the fuses stores what they give one after another. -/
theorem readOtpLoop_spec (fuses : Nat) (s : σ) (fuse : BitVec 32) (out : Nat → UInt8) (i : Nat) :
    (readOtpLoop devs fuses s fuse out i).2 = (otpBytes devs fuses s fuse).2 ∧
      (0 ≤ (readOtpLoop devs fuses s fuse out i).1.1 ↔ (otpBytes devs fuses s fuse).1.isSome) ∧
      ∀ bytes, (otpBytes devs fuses s fuse).1 = some bytes →
        (readOtpLoop devs fuses s fuse out i).1.2 = overlay out i bytes := by
  induction fuses generalizing s fuse out i with
  | zero =>
      refine ⟨rfl, iff_of_true (Int.le_refl 0) rfl, fun bytes hbytes => ?_⟩
      cases hbytes
      rw [overlay_nil]
      rfl
  | succ fuses ih =>
      rw [readOtpLoop, otpBytes]
      cases hread : devs.otpRead s fuse with
      | mk answer s' =>
      by_cases herr : answer.1 < 0
      · simp only [if_pos herr]
        refine ⟨trivial, iff_of_false (by omega) Bool.false_ne_true, fun bytes hbytes => ?_⟩
        cases hbytes
      · obtain ⟨hstate, hret, hdata⟩ :=
          ih s' (fuse + 1) (overlay out i (wordBytes answer.2)) (i + 4)
        simp only [if_neg herr]
        refine ⟨hstate, hret.trans (by rw [Option.isSome_map]), fun bytes hbytes => ?_⟩
        obtain ⟨rest, hrest, rfl⟩ := Option.map_eq_some_iff.mp hbytes
        rw [hdata rest hrest, overlay_append]
        rfl

theorem exit_ne : CMD_EXIT_FAILURE ≠ CMD_EXIT_SUCCESS := by decide

/-- What the read of a buffer of an accepted size does: the source is asked once, and
what it gives is put in front of the data. -/
structure ReadsSource (devs : Devices σ) (s : σ) (arg : CString) (buf : Buffer)
    (r : (Int × Buffer) × σ) : Prop where
  state : r.2 = (sourceBytes devs s arg buf).2
  success : r.1.1 = CMD_EXIT_SUCCESS ↔ Answers devs s buf
  size : r.1.2.size = buf.size
  explicit : buf.type = .explicit → r.1.2.data = buf.data
  stored : buf.type ≠ .explicit → ∀ bytes, (sourceBytes devs s arg buf).1 = some bytes →
    r.1.2.data = overlay buf.data 0 bytes

theorem ReadsSource.of_answer {ret : Int} {data : Nat → UInt8} {s' : σ}
    (hne : buf.type ≠ .explicit) (hstate : s' = (sourceBytes devs s arg buf).2)
    (hret : 0 ≤ ret ↔ Answers devs s buf)
    (hdata : ∀ bytes, (sourceBytes devs s arg buf).1 = some bytes →
      data = overlay buf.data 0 bytes) :
    ReadsSource devs s arg buf
      (if ret < 0 then ((CMD_EXIT_FAILURE, { buf with data := data }), s')
        else ((CMD_EXIT_SUCCESS, { buf with data := data }), s')) := by
  split
  · next herr =>
    exact ⟨hstate, iff_of_false exit_ne fun h => absurd (hret.mpr h) (Int.not_le.mpr herr), rfl,
      fun h => absurd h hne, fun _ => hdata⟩
  · next hok =>
    exact ⟨hstate, iff_of_true rfl (hret.mp (Int.not_lt.mp hok)), rfl,
      fun h => absurd h hne, fun _ => hdata⟩

theorem readOtpBuffer_spec (s : σ) (arg : CString) (htype : buf.type = .otp) :
    (readOtpBuffer devs s buf.offset buf.data buf.size.toNat).2 = (sourceBytes devs s arg buf).2 ∧
      (0 ≤ (readOtpBuffer devs s buf.offset buf.data buf.size.toNat).1.1 ↔ Answers devs s buf) ∧
      ∀ bytes, (sourceBytes devs s arg buf).1 = some bytes →
        (readOtpBuffer devs s buf.offset buf.data buf.size.toNat).1.2 =
          overlay buf.data 0 bytes := by
  rw [readOtpBuffer, sourceBytes, Answers, htype]
  by_cases hfour : buf.size.toNat % 4 = 0
  · simp only [hfour, ne_eq, not_true_eq_false, if_false, true_and]
    exact readOtpLoop_spec _ _ _ _ _
  · simp only [hfour, ne_eq, not_false_eq_true, if_true, false_and, iff_false]
    refine ⟨trivial, by decide, fun bytes hbytes => ?_⟩
    cases hbytes

theorem readBuffer_spec (arg : CString) {n : Nat} (hsize : n ≠ 0 → buf.size.toNat = n)
    (hmax : buf.size.toNat ≤ maxKeySize) :
    ReadsSource devs s arg buf (readBuffer devs s buf n) := by
  have hexpected : ¬(n ≠ 0 ∧ buf.size.toNat ≠ n) := fun h => h.2 (hsize h.1)
  rw [readBuffer, if_neg hexpected, if_neg (Nat.not_lt.mpr hmax)]
  cases htype : buf.type with
  | invalid =>
      refine ⟨?_, iff_of_false exit_ne ?_, rfl, fun _ => rfl, fun _ bytes hbytes => ?_⟩
      · rw [sourceBytes, htype]
      · rw [Answers, htype]
        exact id
      · rw [sourceBytes, htype] at hbytes
        cases hbytes
  | explicit =>
      refine ⟨?_, iff_of_true rfl ?_, rfl, fun _ => rfl, fun hne => absurd htype hne⟩
      · rw [sourceBytes, htype]
      · rw [Answers, htype]
        trivial
  | otp =>
      obtain ⟨hstate, hret, hdata⟩ := @readOtpBuffer_spec σ devs buf s arg htype
      have hne : buf.type ≠ .explicit := by
        rw [htype]
        decide
      have hread := ReadsSource.of_answer hne hstate hret hdata
      rw [htype] at hread
      exact hread
  | device =>
      have hne : buf.type ≠ .explicit := by
        rw [htype]
        decide
      have hstate : (devs.devsRead s buf.major buf.minor buf.offset buf.size.toNat).2 =
          (sourceBytes devs s arg buf).2 := by
        rw [sourceBytes, htype]
      have hret : 0 ≤ (devs.devsRead s buf.major buf.minor buf.offset buf.size.toNat).1.ret ↔
          Answers devs s buf := by
        rw [Answers, htype]
      have hdata : ∀ bytes, (sourceBytes devs s arg buf).1 = some bytes →
          overlay buf.data 0
              (devs.devsRead s buf.major buf.minor buf.offset buf.size.toNat).1.stored =
            overlay buf.data 0 bytes := by
        intro bytes hbytes
        rw [sourceBytes, htype] at hbytes
        simp only at hbytes
        split at hbytes
        · cases hbytes
        · cases hbytes
          rfl
      have hread := ReadsSource.of_answer hne hstate hret hdata
      rw [htype] at hread
      exact hread

/-- A read of a size that is not accepted fails. -/
theorem readBuffer_refused (s : σ) {n : Nat}
    (h : ¬((n ≠ 0 → buf.size.toNat = n) ∧ buf.size.toNat ≤ maxKeySize)) :
    (readBuffer devs s buf n).1.1 ≠ CMD_EXIT_SUCCESS := by
  rw [readBuffer]
  split
  · exact exit_ne
  · next hexpected =>
    split
    · exact exit_ne
    · next hmax => exact absurd ⟨fun hn => not_not.mp fun hne => hexpected ⟨hn, hne⟩,
        Nat.not_lt.mp hmax⟩ h

end Read

section Parsed
variable {devs : Devices σ} {s : σ} {arg : CString} {found buf : Buffer}

theorem parsePlace_type {rest : CString} (h : parsePlace rest found = .ok buf) :
    buf.type = found.type := by
  rw [parsePlace] at h
  split at h
  · cases h
  · split at h
    · cases h
    · cases h
      rfl

/-- A buffer that was described has a source, and one with the key itself in the
argument holds what was stored from there. -/
theorem parseBuffer_type (h : parseBuffer arg found = .ok buf) :
    buf.type ≠ .invalid ∧ (buf.type = .explicit → ∃ string,
      consumePrefix arg "x:".toUTF8.toList = some string ∧
        0 ≤ (getHexBuffer string maxKeySize).1 ∧
        buf.size = BitVec.ofInt 32 (getHexBuffer string maxKeySize).1 ∧
        buf.data = overlay found.data 0 (getHexBuffer string maxKeySize).2) := by
  rw [parseBuffer] at h
  split at h
  · next string hmark =>
    simp only at h
    split at h
    · cases h
    · next hret =>
      cases h
      exact ⟨nofun, fun _ => ⟨string, hmark, Int.not_lt.mp hret, rfl, rfl⟩⟩
  · have hread : buf.type = .otp ∨ buf.type = .device := by
      split at h
      · exact .inl (parsePlace_type h)
      · split at h
        · split at h
          · cases h
          · split at h
            · cases h
            · exact .inr (parsePlace_type h)
        · split at h
          · split at h
            · cases h
            · cases h
              exact .inr rfl
          · cases h
    cases hread with
    | inl hotp =>
      rw [hotp]
      exact ⟨nofun, nofun⟩
    | inr hdevice =>
      rw [hdevice]
      exact ⟨nofun, nofun⟩

theorem supplied_of_overlay {bytes : List UInt8} {data : Nat → UInt8}
    (hsource : (sourceBytes devs s arg buf).1 = some bytes)
    (hlen : bytes.length = buf.size.toNat) :
    Supplied devs s arg buf buf.size.toNat (overlay data 0 bytes) := by
  refine ⟨bytes, hsource, hlen, fun i hi => ?_⟩
  have hlt : i < bytes.length := by omega
  simp only [overlay, Nat.zero_le, if_true, Nat.sub_zero, List.getD_eq_getElem?_getD,
    List.getElem?_eq_getElem hlt, Option.getD_some]

/-- An explicit key is supplied unless a prefix is hidden in it. -/
theorem explicit_supplied_iff {string : CString} (htype : buf.type = .explicit)
    (hmark : consumePrefix arg "x:".toUTF8.toList = some string)
    (hret : 0 ≤ (getHexBuffer string maxKeySize).1)
    (hsize : buf.size = BitVec.ofInt 32 (getHexBuffer string maxKeySize).1)
    (hdata : buf.data = overlay found.data 0 (getHexBuffer string maxKeySize).2) :
    Supplied devs s arg buf buf.size.toNat buf.data ↔ ¬HidesPrefix string maxKeySize := by
  have hsource : (sourceBytes devs s arg buf).1 = hexKey string maxKeySize := by
    rw [sourceBytes, htype, explicitKey, hmark]
    rfl
  constructor
  · rintro ⟨bytes, hbytes, -⟩ hhides
    rw [hsource, hexKey_of_hidden hhides.hidden] at hbytes
    cases hbytes
  · intro hclear
    have hreads := (getHexBuffer_reads_iff string maxKeySize).mpr hclear
    obtain ⟨key, hkey⟩ := hreads.accepted hret
    have hlen := hexKey_length hkey
    rw [hreads.key key hkey] at hsize hdata
    dsimp only at hsize hdata
    rw [hdata]
    refine supplied_of_overlay (hsource.trans hkey) ?_
    simp only [maxKeySize] at hlen
    rw [hsize, BitVec.ofInt_natCast, BitVec.toNat_ofNat]
    exact (Nat.mod_eq_of_lt (by omega)).symm

/-- Of a read that succeeded, all bytes were supplied just when the source did not fall
short. -/
theorem supplied_iff (hparse : parseBuffer arg found = .ok buf) {n : Nat}
    (hsize : n ≠ 0 → buf.size.toNat = n) (hmax : buf.size.toNat ≤ maxKeySize)
    (hanswers : Answers devs s buf) :
    Supplied devs s arg buf buf.size.toNat (readBuffer devs s buf n).1.2.data ↔
      ¬FallsShort devs s arg buf := by
  have hread : ReadsSource devs s arg buf (readBuffer devs s buf n) :=
    readBuffer_spec arg hsize hmax
  obtain ⟨hvalid, hexplicit⟩ := parseBuffer_type hparse
  cases htype : buf.type with
  | invalid => exact absurd htype hvalid
  | explicit =>
      obtain ⟨string, hmark, hret, hlen, hdata⟩ := hexplicit htype
      rw [hread.explicit htype, explicit_supplied_iff htype hmark hret hlen hdata, FallsShort,
        htype]
      simp only [hmark, Option.some.injEq, exists_eq_left']
  | otp =>
      have hne : buf.type ≠ .explicit := by
        rw [htype]
        decide
      rw [Answers, htype] at hanswers
      obtain ⟨bytes, hbytes⟩ := Option.isSome_iff_exists.mp hanswers.2
      have hlen := otpBytes_length _ _ _ hbytes
      have hsource : (sourceBytes devs s arg buf).1 = some bytes := by
        rw [sourceBytes, htype]
        simp only [hanswers.1, ne_eq, not_true_eq_false, if_false, hbytes]
      rw [hread.stored hne bytes hsource]
      refine iff_of_true (supplied_of_overlay hsource (by omega)) ?_
      rw [FallsShort, htype]
      exact id
  | device =>
      have hne : buf.type ≠ .explicit := by
        rw [htype]
        decide
      have hfits := devs.devsRead_fits s buf.major buf.minor buf.offset buf.size.toNat
      rw [Answers, htype] at hanswers
      have hsource : (sourceBytes devs s arg buf).1 =
          some (devs.devsRead s buf.major buf.minor buf.offset buf.size.toNat).1.stored := by
        rw [sourceBytes, htype]
        exact if_neg (Int.not_lt.mpr hanswers)
      rw [hread.stored hne _ hsource, FallsShort, htype]
      constructor
      · rintro ⟨bytes, hbytes, hlen, -⟩ hshort
        rw [hsource] at hbytes
        cases hbytes
        omega
      · intro hall
        exact supplied_of_overlay hsource (Nat.le_antisymm hfits (Nat.not_lt.mp hall))

end Parsed

section Run
variable {devs : Devices σ} {s : σ} {params : Params}

theorem Algo.keySize_bounds {algo : Algo} {n : Nat} (h : algo.keySize = some n) :
    n ≠ 0 ∧ n ≤ maxKeySize := by
  cases algo <;> cases h <;> decide

/-- The initial value that is read after the key, if there is one. -/
def ivRead (devs : Devices σ) (s : σ) (karg : CString) (params : Params) : (Int × Buffer) × σ :=
  readBuffer devs (sourceBytes devs s karg params.key).2 params.iv 0

/-- What is set up when everything passes. -/
def setupOf (devs : Devices σ) (s : σ) (karg : CString) (params : Params) : Setup where
  major := params.major
  minor := params.minor
  args := params.args
  key := (readBuffer devs s params.key params.key.size.toNat).1.2.data
  iv := if params.iv.type = .invalid then none else some (ivRead devs s karg params).1.2.data
  ivSize := if params.iv.type = .invalid then 0 else params.iv.size

theorem setupIv_spec (s' : σ) (key : Buffer) :
    ((params.iv.type ≠ .invalid → params.iv.size.toNat ≤ maxKeySize ∧ Answers devs s' params.iv) →
        (setupIv devs s' params key).setup = some ⟨params.major, params.minor, params.args, key.data,
          if params.iv.type = .invalid then none
            else some (readBuffer devs s' params.iv 0).1.2.data,
          if params.iv.type = .invalid then 0 else params.iv.size⟩) ∧
      (¬(params.iv.type ≠ .invalid →
          params.iv.size.toNat ≤ maxKeySize ∧ Answers devs s' params.iv) →
        (setupIv devs s' params key).setup = none ∧
          (setupIv devs s' params key).ret ≠ CMD_EXIT_SUCCESS) := by
  have hread (hmax : params.iv.size.toNat ≤ maxKeySize) :
      ReadsSource devs s' (.ofBuffer []) params.iv (readBuffer devs s' params.iv 0) :=
    readBuffer_spec _ (fun h => absurd rfl h) hmax
  rw [setupIv]
  by_cases hnone : params.iv.type = .invalid
  · simp only [if_pos hnone]
    exact ⟨fun _ => rfl, fun hfail => absurd (fun h => absurd hnone h) hfail⟩
  · simp only [if_neg hnone]
    constructor
    · intro hpass
      obtain ⟨hmax, hanswers⟩ := hpass hnone
      rw [if_neg (not_not_intro ((hread hmax).success.mpr hanswers)), (hread hmax).size]
      rfl
    · intro hfail
      have hret : (readBuffer devs s' params.iv 0).1.1 ≠ CMD_EXIT_SUCCESS := by
        by_cases hmax : params.iv.size.toNat ≤ maxKeySize
        · exact fun hok => hfail fun _ => ⟨hmax, (hread hmax).success.mp hok⟩
        · exact readBuffer_refused s' fun h => hmax h.2
      rw [if_pos hret]
      exact ⟨rfl, exit_ne⟩

/-- A region is set up just when everything passes. -/
theorem setupParams_spec (s : σ) (karg : CString) (params : Params) :
    (Passes devs s karg params →
        (setupParams devs s params).setup = some (setupOf devs s karg params)) ∧
      (¬Passes devs s karg params → (setupParams devs s params).setup = none ∧
        (setupParams devs s params).ret ≠ CMD_EXIT_SUCCESS) := by
  have hinval : -EINVAL ≠ CMD_EXIT_SUCCESS := by decide
  rw [setupParams]
  constructor
  · intro hpass
    have hbounds := Algo.keySize_bounds hpass.keySize
    have hread : ReadsSource devs s karg params.key
        (readBuffer devs s params.key params.key.size.toNat) :=
      readBuffer_spec karg (fun _ => rfl) hbounds.2
    simp only [if_neg (not_not_intro hpass.major), if_neg (Int.not_lt.mpr hpass.check),
      hpass.keySize, if_neg (not_not_intro (hread.success.mpr hpass.key)), hread.state]
    exact (setupIv_spec _ _).1 hpass.iv
  · intro hfail
    split
    · exact ⟨rfl, hinval⟩
    · next hmajor =>
      split
      · exact ⟨rfl, hinval⟩
      · next hcheck =>
        split
        · exact ⟨rfl, exit_ne⟩
        · next keySize halgo =>
          dsimp only
          split
          · exact ⟨rfl, exit_ne⟩
          · next hok =>
            have hsize : (keySize ≠ 0 → params.key.size.toNat = keySize) ∧
                params.key.size.toNat ≤ maxKeySize :=
              Classical.byContradiction fun h => hok (readBuffer_refused s h)
            have hread : ReadsSource devs s karg params.key (readBuffer devs s params.key keySize) :=
              readBuffer_spec karg hsize.1 hsize.2
            have hkey := hread.success.mp (not_not.mp hok)
            have hexact := hsize.1 (Algo.keySize_bounds halgo).1
            rw [hread.state]
            exact (setupIv_spec _ _).2 fun hiv => hfail
              ⟨not_not.mp hmajor, Int.not_lt.mp hcheck, hexact ▸ halgo, hkey, hiv⟩

theorem parseRegion_buffers {params params' : Params} {arg : CString}
    (h : parseRegion params arg = .ok params') :
    params'.key = params.key ∧ params'.iv = params.iv := by
  rw [parseRegion] at h
  split at h
  · cases h
  · split at h
    · cases h
    · cases h
      exact ⟨rfl, rfl⟩

/-- The arguments are always parsed to an end, and the buffers are those of the last
options for them. -/
theorem parseArgs_spec (argv : List CString) :
    ∃ rets s' r, Calls argv options.text getoptReset rets s' ∧ parseArgs argv = some r ∧
      ∀ params, r = .ok params →
        (∃ karg found, lastArg 'k'.toUInt8 rets = some karg ∧
            parseBuffer karg found = .ok params.key) ∧
          ParsedBuffer .zeroed params.iv (lastArg 'i'.toUInt8 rets) := by
  obtain ⟨rets, s', hcalls, hparse⟩ := parseOptions_calls argv
  refine ⟨rets, s', ?_⟩
  rw [parseArgs, hparse]
  cases hfold : foldOptions ⟨.zeroed, false, false, false⟩ rets with
  | error ret =>
      refine ⟨.error ret, hcalls, rfl, fun params hparams => ?_⟩
      cases hparams
  | ok p =>
      obtain ⟨hkey, hiv, hhave⟩ := foldOptions_buffers hfold
      simp only [Option.bind_eq_bind, Option.bind_some, Except.map]
      split
      · refine ⟨_, hcalls, rfl, fun params hparams => ?_⟩
        cases hparams
      · next hseen =>
        split
        · refine ⟨_, hcalls, rfl, fun params hparams => ?_⟩
          cases hparams
        · next hroom =>
          have harg := List.getElem?_eq_getElem (Nat.lt_of_succ_le (Nat.not_lt.mp hroom))
          rw [harg]
          refine ⟨_, hcalls, rfl, fun params hparams => ?_⟩
          have hsome : (lastArg 'k'.toUInt8 rets).isSome := by
            rw [not_not] at hseen
            rw [← Bool.false_or (Option.isSome _), ← hhave]
            exact hseen.2.2
          obtain ⟨karg, hkarg⟩ := Option.isSome_iff_exists.mp hsome
          rw [hkarg] at hkey
          obtain ⟨hsamekey, hsameiv⟩ := parseRegion_buffers hparams
          obtain ⟨found, hfound⟩ := hkey
          rw [hsamekey, hsameiv]
          exact ⟨⟨karg, found, hkarg, hfound⟩, hiv⟩

section Passed
variable {rets : List Returned} {karg : CString}

theorem Complete.setup_iff (hpass : Passes devs s karg params)
    (hkarg : lastArg 'k'.toUInt8 rets = some karg)
    (hkey : ∃ found, parseBuffer karg found = .ok params.key)
    (hiv : ParsedBuffer .zeroed params.iv (lastArg 'i'.toUInt8 rets)) :
    Complete devs s rets params (setupOf devs s karg params) ↔
      ¬FallsShort devs s karg params.key ∧
        ∀ arg, lastArg 'i'.toUInt8 rets = some arg →
          ¬FallsShort devs (sourceBytes devs s karg params.key).2 arg params.iv := by
  obtain ⟨found, hfound⟩ := hkey
  have hkeySupplied := supplied_iff hfound (fun _ => rfl) (Algo.keySize_bounds hpass.keySize).2
    hpass.key
  have hivSupplied (arg : CString) (harg : lastArg 'i'.toUInt8 rets = some arg) :
      params.iv.type ≠ .invalid ∧
        (Supplied devs (sourceBytes devs s karg params.key).2 arg params.iv params.iv.size.toNat
            (ivRead devs s karg params).1.2.data ↔
          ¬FallsShort devs (sourceBytes devs s karg params.key).2 arg params.iv) := by
    rw [harg] at hiv
    obtain ⟨found', hfound'⟩ := hiv
    have hsome := (parseBuffer_type hfound').1
    obtain ⟨hmax, hanswers⟩ := hpass.iv hsome
    exact ⟨hsome, supplied_iff hfound' (fun h => absurd rfl h) hmax hanswers⟩
  constructor
  · intro hcomplete
    constructor
    · obtain ⟨arg, n, harg, halgo, hsupplied⟩ := hcomplete.key
      rw [hkarg] at harg
      cases harg
      have hn : some n = some params.key.size.toNat := halgo.symm.trans hpass.keySize
      cases hn
      exact hkeySupplied.mp hsupplied
    · intro arg harg
      obtain ⟨hsome, hiff⟩ := hivSupplied arg harg
      obtain ⟨karg', iv, hkarg', hset, hsupplied⟩ := hcomplete.iv arg harg
      rw [hkarg] at hkarg'
      cases hkarg'
      simp only [setupOf, if_neg hsome, Option.some.injEq] at hset hsupplied
      subst hset
      exact hiff.mp hsupplied
  · rintro ⟨hkeyFull, hivFull⟩
    refine ⟨⟨karg, _, hkarg, hpass.keySize, hkeySupplied.mpr hkeyFull⟩, fun arg harg => ?_⟩
    obtain ⟨hsome, hiff⟩ := hivSupplied arg harg
    refine ⟨karg, _, hkarg, if_neg hsome, ?_⟩
    simp only [setupOf, if_neg hsome]
    exact hiff.mpr (hivFull arg harg)

end Passed

/-- A region is set up with complete keys only, and otherwise the command fails, just
when no source that answers falls short of the size it is asked for. -/
theorem memcrypt_complete_iff (devs : Devices σ) (s : σ) (argv : List CString) :
    SetsUpComplete devs s argv ↔ SourcesDeliver devs s argv := by
  obtain ⟨rets, s', r, hcalls, hparse, hbuffers⟩ := parseArgs_spec argv
  cases r with
  | error ret =>
      have hrun : cmdMemcrypt devs s argv = some ⟨CMD_EXIT_FAILURE, none, s⟩ := by
        rw [cmdMemcrypt, hparse]
        rfl
      refine iff_of_true ⟨_, hrun, fun _ => exit_ne, nofun⟩ ?_
      intro rets' s'' params karg _ hok
      rw [hparse] at hok
      cases hok
  | ok params =>
      have hrun : cmdMemcrypt devs s argv = some (setupParams devs s params) := by
        rw [cmdMemcrypt, hparse]
        rfl
      obtain ⟨⟨karg, found, hkarg, hfound⟩, hiv⟩ := hbuffers params rfl
      obtain ⟨hset, hunset⟩ := @setupParams_spec σ devs s karg params
      by_cases hpass : Passes devs s karg params
      · have hiff := Complete.setup_iff hpass hkarg ⟨found, hfound⟩ hiv
        constructor
        · rintro ⟨outcome, hout, -, hcomplete⟩ rets' s'' params' karg' hcalls' hok hkarg' -
          obtain rfl : setupParams devs s params = outcome := Option.some.inj (hrun.symm.trans hout)
          obtain ⟨rets₁, s₁, params₁, hcalls₁, hok₁, hcomp⟩ := hcomplete _ (hset hpass)
          obtain ⟨rfl, -⟩ := hcalls.unique hcalls'
          obtain ⟨rfl, -⟩ := hcalls.unique hcalls₁
          rw [hparse] at hok hok₁
          cases hok
          cases hok₁
          rw [hkarg] at hkarg'
          cases hkarg'
          exact hiff.mp hcomp
        · intro hdeliver
          refine ⟨_, hrun, fun hnone => ?_, fun setup hsetup => ?_⟩
          · rw [hset hpass] at hnone
            cases hnone
          · rw [hset hpass] at hsetup
            cases hsetup
            exact ⟨rets, s', params, hcalls, hparse,
              hiff.mpr (hdeliver rets s' params karg hcalls hparse hkarg hpass)⟩
      · refine iff_of_true ⟨_, hrun, fun _ => (hunset hpass).2, fun setup hsetup => ?_⟩ ?_
        · rw [(hunset hpass).1] at hsetup
          cases hsetup
        · intro rets' s'' params' karg' hcalls' hok hkarg' hpass'
          obtain ⟨rfl, -⟩ := hcalls.unique hcalls'
          rw [hparse] at hok
          cases hok
          rw [hkarg] at hkarg'
          cases hkarg'
          exact absurd hpass' hpass

/-- A machine whose devices have no bytes to give. -/
def emptyDevices : Devices Unit where
  devsCheck _ _ _ := EOK
  devsRead _ _ _ _ _ := (⟨0, [], fun _ => rfl⟩, ())
  devsRead_fits _ _ _ _ _ := Nat.zero_le _
  otpRead _ _ := ((EOK, 0), ())
  memcrypt _ _ := (EOK, ())

/-- `memcrypt -d 9.0 -p aes128:0 -k d:2.0:0:16 0:16`. -/
def deviceKeyLine : List CString :=
  ["memcrypt", "-d", "9.0", "-p", "aes128:0", "-k", "d:2.0:0:16", "0:16"].map fun arg =>
    .ofBuffer arg.toUTF8.toList

/-- The key is read from a device that has no bytes to give, and the region is set up. -/
theorem short_key_set_up :
    ¬∀ (devs : Devices Unit) (s : Unit) (argv : List CString), SetsUpComplete devs s argv := by
  intro h
  obtain ⟨outcome, hout, -, hcomplete⟩ := h emptyDevices () deviceKeyLine
  have hset : ((cmdMemcrypt emptyDevices () deviceKeyLine).bind (·.setup)).isSome := by
    decide +kernel
  have htype : ((parseArgs deviceKeyLine).bind (·.toOption)).map (·.key.type) = some .device := by
    decide +kernel
  rw [hout] at hset
  obtain ⟨setup, hsetup⟩ := Option.isSome_iff_exists.mp hset
  obtain ⟨rets, s', params, -, hparse, hcomp⟩ := hcomplete setup hsetup
  obtain ⟨arg, n, -, halgo, bytes, hbytes, hlen, -⟩ := hcomp.key
  rw [hparse] at htype
  have hdevice : params.key.type = .device := Option.some.inj htype
  rw [sourceBytes, hdevice] at hbytes
  cases hbytes
  exact (Algo.keySize_bounds halgo).1 hlen.symm

end Run

end Plo.Cmds.Memcrypt
