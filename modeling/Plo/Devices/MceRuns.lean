import Plo.Devices.Mce

/-!
Histories of calls that fail, and what a call after them comes to. A call that passes the
checks of its parameters latches its cipher, whether it succeeds or not; one that gets as far
as the context leaves it enabled. AES256 sets up no context, and the region is never given to
it.
-/
namespace Plo.Devices.Mce

section
variable {reg : Nat} {key : Nat → UInt8} {s : State}

theorem storeKeyLoop_other (n i : Nat) (crc : BitVec 8) {r : Nat}
    (hr : r < reg + i ∨ reg + i + n ≤ r) :
    (storeKeyLoop reg key n i crc s).1.regs r = s.regs r := by
  induction n generalizing i crc s with
  | zero => rfl
  | succ n ih =>
      rw [storeKeyLoop, ih _ _ (by omega)]
      exact Function.update_of_ne (by omega) _ _

theorem storeKeyLoop_word (n i : Nat) (crc : BitVec 8) {j : Nat} (hj : j < n) :
    (storeKeyLoop reg key n i crc s).1.regs (reg + i + j) = keyWord key (i + j) := by
  induction n generalizing i j crc s with
  | zero => exact absurd hj (Nat.not_lt_zero j)
  | succ n ih =>
      rw [storeKeyLoop]
      cases j with
      | zero =>
          rw [storeKeyLoop_other _ _ _ (by omega)]
          exact Function.update_self _ _ _
      | succ j =>
          have hreg : reg + i + (j + 1) = reg + (i + 1) + j := by omega
          have hword : i + (j + 1) = i + 1 + j := by omega
          rw [hreg, hword]
          exact ih (i + 1) _ (Nat.lt_of_succ_lt_succ hj)

/-- Besides the registers of the key, only the record of the table changes. -/
theorem storeKeyLoop_record (n i : Nat) (crc : BitVec 8) :
    (storeKeyLoop reg key n i crc s).1.initialized = s.initialized ∧
      (storeKeyLoop reg key n i crc s).1.cipher = s.cipher ∧
      (storeKeyLoop reg key n i crc s).1.indexed = s.indexed ++ List.range' i n := by
  induction n generalizing i crc s with
  | zero => exact ⟨rfl, rfl, (List.append_nil _).symm⟩
  | succ n ih =>
      rw [storeKeyLoop]
      obtain ⟨hinit, hcipher, hindexed⟩ := ih (i + 1) _
      refine ⟨hinit, hcipher, ?_⟩
      rw [hindexed, List.range'_succ, List.append_assoc]
      rfl

end

section
variable (s : State) (reg : Nat) (key : Nat → UInt8) (keysize : Nat)

theorem storeKey_other {r : Nat} (hr : r < reg ∨ reg + keysize / 4 ≤ r) :
    (storeKey s reg key keysize).1.regs r = s.regs r :=
  storeKeyLoop_other _ 0 _ hr

theorem storeKey_word {j : Nat} (hj : j < keysize / 4) :
    (storeKey s reg key keysize).1.regs (reg + j) = keyWord key j := by
  have hword := @storeKeyLoop_word reg key s (keysize / 4) 0 0x55 j hj
  rw [Nat.add_zero, Nat.zero_add] at hword
  exact hword

theorem storeKey_cipher : (storeKey s reg key keysize).1.cipher = s.cipher :=
  (storeKeyLoop_record _ 0 _).2.1

theorem storeKey_indexed : (storeKey s reg key keysize).1.indexed =
    s.indexed ++ List.range' 0 (keysize / 4) :=
  (storeKeyLoop_record _ 0 _).2.2

end

/-- The parameters of a call are accepted by a driver that was not called before. -/
def Call.basic (c : Call) : Bool :=
  match cipherOf c.algo with
  | none => false
  | some cipher => validateParams reset c cipher = EOK

/-- There is an initial value of at least eight bytes in stream mode, and none else. -/
def Call.IvRight (c : Call) : Prop :=
  if c.mode = MODE_STREAM then 8 ≤ c.ivSize ∧ c.iv.isSome else c.ivSize = 0

instance (c : Call) : Decidable c.IvRight := by unfold Call.IvRight; infer_instance

/-- A supported combination, with a range that is not empty and inside the window of a
peripheral. -/
structure Call.Supported (c : Call) : Prop where
  basic : c.basic
  iv : c.IvRight
  start : c.start < c.end_
  end_ : c.end_ ≤ 0x10000000

section
variable {per : Periph} {s : State} {c : Call}

theorem cipherOf_cases {algo cipher : BitVec 32} (h : cipherOf algo = some cipher) :
    cipher = algo ∧ (algo = CIPHER_AES128 ∨ algo = CIPHER_NOEKEON ∨ algo = CIPHER_AES256) := by
  unfold cipherOf at h
  split at h
  · next heq =>
      cases h
      exact ⟨heq.symm, Or.inl heq⟩
  · split at h
    · next heq =>
        cases h
        exact ⟨heq.symm, Or.inr (Or.inl heq)⟩
    · split at h
      · next heq =>
          cases h
          exact ⟨heq.symm, Or.inr (Or.inr heq)⟩
      · cases h

/-- The checks besides the one of the cipher that is latched. -/
theorem validateParams_eq (s : State) (c : Call) (cipher : BitVec 32) :
    validateParams s c cipher =
      if s.cipher ≠ 0 ∧ s.cipher.setWidth 32 ≠ cipher then -EINVAL
      else validateParams reset c cipher := by
  have hreset : ¬(reset.cipher ≠ 0 ∧ reset.cipher.setWidth 32 ≠ cipher) := fun h => h.1 rfl
  by_cases h : s.cipher ≠ 0 ∧ s.cipher.setWidth 32 ≠ cipher
  · rw [if_pos h]
    simp only [validateParams, if_pos h, ite_self]
  · rw [if_neg h]
    simp only [validateParams, if_neg h, if_neg hreset]

theorem validateParams_cases (s : State) (c : Call) (cipher : BitVec 32) :
    validateParams s c cipher = EOK ∨ validateParams s c cipher = -EINVAL := by
  unfold validateParams
  repeat' split
  all_goals first | exact Or.inr rfl | exact Or.inl rfl

theorem basic_iff : c.basic = true ↔
    cipherOf c.algo = some c.algo ∧ validateParams reset c c.algo = EOK := by
  unfold Call.basic
  cases hcipher : cipherOf c.algo with
  | none => simp
  | some cipher =>
      obtain ⟨rfl, -⟩ := cipherOf_cases hcipher
      simp

/-- A call that is refused changes nothing. -/
theorem configureRegion_refused
    (h : c.basic = true → s.cipher ≠ 0 ∧ s.cipher.setWidth 32 ≠ c.algo) :
    configureRegion per s c = (s, -EINVAL) := by
  unfold configureRegion
  cases hcipher : cipherOf c.algo with
  | none => rfl
  | some cipher =>
      obtain ⟨rfl, -⟩ := cipherOf_cases hcipher
      have hret : validateParams s c c.algo = -EINVAL := by
        rw [validateParams_eq]
        by_cases hbasic : c.basic = true
        · exact if_pos (h hbasic)
        · split
          · rfl
          · rcases validateParams_cases reset c c.algo with hok | hfail
            · exact absurd (basic_iff.mpr ⟨hcipher, hok⟩) hbasic
            · exact hfail
      simp only [hret]
      exact if_pos (by decide)

/-- A call whose parameters are accepted, by a driver that latched no cipher or this one. -/
theorem configureRegion_accepted (hbasic : c.basic = true)
    (hcipher : s.cipher ≠ 0 → s.cipher.setWidth 32 = c.algo) :
    configureRegion per s c = configureSteps per s c c.algo := by
  obtain ⟨hof, hvalid⟩ := basic_iff.mp hbasic
  have hlatch : ¬(s.cipher ≠ 0 ∧ s.cipher.setWidth 32 ≠ c.algo) :=
    fun h => h.2 (hcipher h.1)
  have hret : validateParams s c c.algo = EOK := by
    rw [validateParams_eq, if_neg hlatch, hvalid]
  simp only [configureRegion, hof, hret]
  exact if_neg (by decide)

/-- A check is passed only where its condition does not hold. -/
theorem check_passed {p : Prop} [Decidable p] {ret : Int}
    (h : (if p then -EINVAL else ret) = EOK) : ¬p ∧ ret = EOK := by
  by_cases hp : p
  · rw [if_pos hp] at h
    exact absurd h (by decide)
  · rw [if_neg hp] at h
    exact ⟨hp, h⟩

/-- What the checks of the parameters let through. -/
theorem basic_cases (h : c.basic = true) :
    (c.algo = CIPHER_AES128 ∨ c.algo = CIPHER_NOEKEON ∨ c.algo = CIPHER_AES256) ∧
      (c.mode = MODE_STREAM ∨ c.mode = MODE_NBLOCK ∨ c.mode = MODE_FBLOCK) ∧
      (c.algo = CIPHER_AES256 → c.mode ≠ MODE_STREAM) ∧ (0 ≤ c.reg ∧ c.reg < 4) ∧
      c.start % 4096 = 0 ∧ c.end_ % 4096 = 0 := by
  obtain ⟨hof, hvalid⟩ := basic_iff.mp h
  unfold validateParams at hvalid
  obtain ⟨hreg, hvalid⟩ := check_passed hvalid
  obtain ⟨-, hvalid⟩ := check_passed hvalid
  obtain ⟨hmode, hvalid⟩ := check_passed hvalid
  obtain ⟨hstream, hvalid⟩ := check_passed hvalid
  obtain ⟨-, hvalid⟩ := check_passed hvalid
  obtain ⟨hpages, -⟩ := check_passed hvalid
  rw [not_or, not_not, not_not] at hpages
  refine ⟨(cipherOf_cases hof).2, ?_, ?_, ?_, hpages⟩
  · by_contra hnone
    rw [not_or, not_or] at hnone
    exact hmode hnone
  · exact fun halgo hmode => hstream ⟨hmode, halgo⟩
  · omega

end

/-- The field of the CRC holds what the peripheral puts there. -/
theorem crcField_crcUp (t : BitVec 32) (crc : BitVec 8) :
    (((t &&& ~~~CCCFGR_CRC_MASK) ||| (crc.setWidth 32 <<< 8)) >>> 8) &&& 0xff =
      crc.setWidth 32 := by
  refine BitVec.eq_of_getLsbD_eq ?_
  intro i hi
  interval_cases i <;> simp [CCCFGR_CRC_MASK]

/-- Neither the CRC nor the enable bit goes over the mode. -/
theorem modeField_crcUp (t : BitVec 32) (crc : BitVec 8) :
    (((t &&& ~~~CCCFGR_CRC_MASK) ||| (crc.setWidth 32 <<< 8)) >>> 4) &&& MODE_MASK =
      (t >>> 4) &&& MODE_MASK := by
  refine BitVec.eq_of_getLsbD_eq ?_
  intro i hi
  interval_cases i <;> simp [CCCFGR_CRC_MASK, MODE_MASK]

theorem modeField_enable (t : BitVec 32) :
    ((t ||| CCCFGR_CCEN) >>> 4) &&& MODE_MASK = (t >>> 4) &&& MODE_MASK := by
  refine BitVec.eq_of_getLsbD_eq ?_
  intro i hi
  interval_cases i <;> simp [CCCFGR_CCEN, MODE_MASK]

/-- The mode that is stored for a context. -/
theorem modeField_set (t mode : BitVec 32) :
    (((t &&& ~~~(CCCFGR_VERSION_MASK ||| (MODE_MASK <<< 4))) ||| (mode <<< 4)) >>> 4) &&& MODE_MASK =
      mode &&& MODE_MASK := by
  refine BitVec.eq_of_getLsbD_eq ?_
  intro i hi
  interval_cases i <;> simp [CCCFGR_VERSION_MASK, MODE_MASK]

theorem enabled_enable (t : BitVec 32) : (t ||| CCCFGR_CCEN) &&& CCCFGR_CCEN ≠ 0 := by
  intro h
  have hbit := congrArg (BitVec.getLsbD · 0) h
  simp [CCCFGR_CCEN] at hbit

section
variable {s : State}

/-- What the last part of the set-up of the context leaves. -/
structure KeyUp (s s' : State) (ctxkey : Option (Nat → UInt8)) : Prop where
  enabled : s'.regs (mceCccfgr 1) &&& CCCFGR_CCEN ≠ 0
  mode : (s'.regs (mceCccfgr 1) >>> 4) &&& MODE_MASK = (s.regs (mceCccfgr 1) >>> 4) &&& MODE_MASK
  key : ∀ key, ctxkey = some key → ∀ i < 4, s'.regs (mceCckeyr0 1 + i) = keyWord key i
  other : ∀ r < mceCccfgr 1, s'.regs r = s.regs r
  cipher : s'.cipher = s.cipher
  indexed : (∀ i ∈ s.indexed, i < 4) → ∀ i ∈ s'.indexed, i < 4

/-- The bit of the context comes up. -/
def enableContext (s : State) : State :=
  waitBusy (s.store (mceCccfgr 1) (s.regs (mceCccfgr 1) ||| CCCFGR_CCEN)) (mceCccfgr 1) CCCFGR_CCEN

theorem enableContext_self (s : State) : (enableContext s).regs (mceCccfgr 1) =
    (s.regs (mceCccfgr 1) ||| CCCFGR_CCEN) ||| CCCFGR_CCEN := by
  simp [enableContext, waitBusy, State.store]

theorem enableContext_other (s : State) {r : Nat} (hr : r ≠ mceCccfgr 1) :
    (enableContext s).regs r = s.regs r := by
  simp [enableContext, waitBusy, State.store, hr]

theorem configureContextKey_up (s : State) (ctxkey : Option (Nat → UInt8)) :
    ∃ s', configureContextKey s 1 ctxkey = (s', EOK) ∧ KeyUp s s' ctxkey := by
  cases ctxkey with
  | none =>
      refine ⟨enableContext s, rfl, ?_, ?_, nofun, ?_, rfl, fun h => h⟩
      · rw [enableContext_self]
        exact enabled_enable _
      · rw [enableContext_self, modeField_enable, modeField_enable]
      · intro r hr
        exact enableContext_other s (Nat.ne_of_lt hr)
  | some key =>
      obtain ⟨s₁, crc, hstore⟩ : ∃ s₁ crc, storeKey s (mceCckeyr0 1) key 16 = (s₁, crc) :=
        ⟨_, _, rfl⟩
      have hs₁ : s₁ = (storeKey s (mceCckeyr0 1) key 16).1 := (congrArg Prod.fst hstore).symm
      have hkey (i : Nat) (hi : i < 4) : s₁.regs (mceCckeyr0 1 + i) = keyWord key i := by
        rw [hs₁]
        exact storeKey_word s _ key 16 hi
      have hother (r : Nat) (hr : r < mceCckeyr0 1) : s₁.regs r = s.regs r := by
        rw [hs₁]
        exact storeKey_other s _ key 16 (Or.inl hr)
      have hrun : configureContextKey s 1 (some key) =
          (enableContext (crcUp s₁ (mceCccfgr 1) crc), EOK) := by
        have hcrc : ((crcUp s₁ (mceCccfgr 1) crc).regs (mceCccfgr 1) >>> 8) &&& 0xff =
            crc.setWidth 32 := by
          rw [crcUp, store_self]
          exact crcField_crcUp _ crc
        simp only [configureContextKey, hstore]
        exact if_neg (not_not.mpr hcrc)
      have hup : (crcUp s₁ (mceCccfgr 1) crc).regs (mceCccfgr 1) =
          (s₁.regs (mceCccfgr 1) &&& ~~~CCCFGR_CRC_MASK) ||| (crc.setWidth 32 <<< 8) :=
        store_self _ _ _
      have hup' (r : Nat) (hr : r ≠ mceCccfgr 1) : (crcUp s₁ (mceCccfgr 1) crc).regs r = s₁.regs r :=
        store_other _ _ hr
      refine ⟨_, hrun, ?_, ?_, ?_, ?_, ?_, ?_⟩
      · rw [enableContext_self]
        exact enabled_enable _
      · rw [enableContext_self, modeField_enable, modeField_enable, hup, modeField_crcUp,
          hother _ (by decide)]
      · rintro _ ⟨⟩ i hi
        have hne : mceCckeyr0 1 + i ≠ mceCccfgr 1 := by
          simp only [mceCckeyr0, mceCccfgr, if_true]
          omega
        rw [enableContext_other _ hne, hup' _ hne, hkey i hi]
      · intro r hr
        have hlt : mceCccfgr 1 < mceCckeyr0 1 := by decide
        rw [enableContext_other _ (Nat.ne_of_lt hr), hup' _ (Nat.ne_of_lt hr),
          hother _ (Nat.lt_trans hr hlt)]
      · exact (congrArg State.cipher hs₁).trans (storeKey_cipher s _ key 16)
      · intro h i hi
        have hrec : s₁.indexed = s.indexed ++ List.range' 0 4 :=
          (congrArg State.indexed hs₁).trans (storeKey_indexed s _ key 16)
        have hi : i ∈ s₁.indexed := hi
        rw [hrec, List.mem_append] at hi
        rcases hi with hi | hi
        · exact h i hi
        · exact (List.mem_range'_1.mp hi).2

end

/-- A driver that latched a cipher and did nothing else. -/
def latched (cipher : BitVec 32) : State :=
  { regs := Function.update (fun _ => 0) mceCr (cipher <<< 4)
    initialized := true
    cipher := cipher.setWidth 8
    indexed := [] }

/-- The ciphers that have a context. -/
def HasContext (cipher : BitVec 32) : Prop := cipher = CIPHER_AES128 ∨ cipher = CIPHER_NOEKEON

theorem HasContext.ne_aes256 {cipher : BitVec 32} (h : HasContext cipher) :
    cipher ≠ CIPHER_AES256 := by
  rcases h with rfl | rfl <;> decide

theorem HasContext.setWidth {cipher : BitVec 32} (h : HasContext cipher) :
    cipher.setWidth 8 ≠ 0 ∧ (cipher.setWidth 8).setWidth 32 = cipher := by
  rcases h with rfl | rfl <;> decide

/-- The steps of the call that are behind the latch. -/
def contextSteps (per : Periph) (s : State) (c : Call) : State × Int :=
  let (s, ret) := configureContext s c c.algo
  if ret < 0 then (s, ret)
  else
    let (s, ret) := configureRegionInternal per s c.reg.toNat c.mode 1
      (per.region.1 + c.start) (per.region.1 + c.end_ - 1)
    if ret < 0 then (s, ret) else (configureLock s GLOBALLOCK, EOK)

section
variable {per : Periph} {c : Call}

theorem configurePer_reset (cipher : BitVec 32) :
    configurePer { reset with initialized := true } cipher none none = latched cipher := by
  have hcr : (0#32 &&& ~~~CR_CIPHERSEL_MASK) ||| (cipher <<< 4) = cipher <<< 4 := by simp
  simp only [configurePer, selectCipher, reset, if_true, storeMasterKey, State.store, latched]
  exact congrArg (fun v => (⟨Function.update (fun _ => 0) mceCr v, true, cipher.setWidth 8, []⟩ :
    State)) hcr

theorem configurePer_used {s : State} (hcipher : s.cipher ≠ 0) (cipher : BitVec 32) :
    configurePer s cipher none none = s := by
  simp only [configurePer, selectCipher, if_neg hcipher, storeMasterKey]

theorem configureSteps_eq {s : State} (hctx : HasContext c.algo) :
    configureSteps per s c c.algo =
      contextSteps per (configurePer { s with initialized := true } c.algo none none) c := by
  have hmk (mode : BitVec 32) : ¬(c.algo = CIPHER_AES256 ∧ c.mode = mode) :=
    fun h => hctx.ne_aes256 h.1
  simp only [configureSteps, if_neg (hmk _)]
  rfl

/-- A call of a cipher with a context, by a driver that latched nothing or this cipher. -/
theorem configureRegion_latched {s : State} (hbasic : c.basic = true) (hctx : HasContext c.algo)
    (hs : s = reset ∨ s = latched c.algo) :
    configureRegion per s c = contextSteps per (latched c.algo) c := by
  rcases hs with rfl | rfl
  · rw [configureRegion_accepted hbasic fun h => absurd rfl h, configureSteps_eq hctx,
      configurePer_reset]
  · rw [configureRegion_accepted hbasic fun _ => hctx.setWidth.2, configureSteps_eq hctx,
      configurePer_used hctx.setWidth.1]
    rfl

/-- Without the initial value it needs, the call leaves the driver with the cipher latched. -/
theorem configureContext_ivWrong (s : State) (hctx : HasContext c.algo) (hiv : ¬c.IvRight) :
    configureContext s c c.algo = (s, -EINVAL) := by
  have hctx' : c.algo = CIPHER_AES128 ∨ c.algo = CIPHER_NOEKEON := hctx
  unfold Call.IvRight at hiv
  rw [configureContext, if_pos hctx']
  by_cases hmode : c.mode = MODE_STREAM
  · rw [if_pos hmode, not_and] at hiv
    rw [if_pos hmode]
    by_cases hsize : c.ivSize < 8
    · exact if_pos hsize
    · have hnone : c.iv = none := by
        have hnot := hiv (BitVec.not_lt.mp hsize)
        simpa using hnot
      rw [if_neg hsize, configureCipherContext, if_neg (by decide), if_pos ⟨hmode, hnone⟩]
  · rw [if_neg hmode] at hiv
    rw [if_neg hmode, if_pos hiv]

/-- The context is free, and its set-up succeeds with a nonce exactly in stream mode. -/
theorem configureCipherContext_up (s : State) {mode : BitVec 32}
    (nonce ctxkey : Option (Nat → UInt8)) (hmode : mode &&& MODE_MASK = mode)
    (hnonce : mode = MODE_STREAM ↔ nonce.isSome = true)
    (hfree : s.regs (mceCccfgr 1) &&& CCCFGR_CCEN = 0) :
    ∃ s', configureCipherContext s 1 0 mode nonce ctxkey = (s', EOK) ∧
      s'.regs (mceCccfgr 1) &&& CCCFGR_CCEN ≠ 0 ∧
      (s'.regs (mceCccfgr 1) >>> 4) &&& MODE_MASK = mode ∧
      (∀ key, ctxkey = some key → ∀ i < 4, s'.regs (mceCckeyr0 1 + i) = keyWord key i) ∧
      (∀ r < mceCccfgr 1, s'.regs r = s.regs r) ∧ s'.cipher = s.cipher ∧
      ((∀ i ∈ s.indexed, i < 4) → ∀ i ∈ s'.indexed, i < 4) := by
  obtain ⟨s₁, hs₁, hrun⟩ : ∃ s₁ : State,
      ((∀ r < mceCcnr0 1, s₁.regs r = s.regs r) ∧ s₁.cipher = s.cipher ∧
        ((∀ i ∈ s.indexed, i < 4) → ∀ i ∈ s₁.indexed, i < 4)) ∧
      configureCipherContext s 1 0 mode nonce ctxkey = configureContextKey
        (s₁.store (mceCccfgr 1) ((s.regs (mceCccfgr 1) &&&
          ~~~(CCCFGR_VERSION_MASK ||| (MODE_MASK <<< 4))) ||| (mode <<< 4))) 1 ctxkey := by
    cases nonce with
    | none =>
        have hstream : mode ≠ MODE_STREAM := by simpa using hnonce
        refine ⟨s, ⟨fun _ _ => rfl, rfl, fun h => h⟩, ?_⟩
        have hnone : ¬(mode ≠ MODE_STREAM ∧ (none : Option (Nat → UInt8)).isSome = true) := by simp
        rw [configureCipherContext, if_neg (by decide), if_neg fun h => hstream h.1, if_neg hnone,
          if_neg (not_not.mpr hfree)]
    | some nonce =>
        have hstream : mode = MODE_STREAM := hnonce.mpr rfl
        refine ⟨(storeKey s (mceCcnr0 1) nonce 8).1, ⟨?_, storeKey_cipher _ _ _ _, ?_⟩, ?_⟩
        · intro r hr
          exact storeKey_other s _ nonce 8 (Or.inl hr)
        · intro h i hi
          rw [storeKey_indexed, List.mem_append] at hi
          rcases hi with hi | hi
          · exact h i hi
          · have hlt := (List.mem_range'_1.mp hi).2
            omega
        · have hsome : ¬(mode = MODE_STREAM ∧ some nonce = none) := by simp
          have hmode' : ¬(mode ≠ MODE_STREAM ∧ (some nonce).isSome = true) := fun h => h.1 hstream
          rw [configureCipherContext, if_neg (by decide), if_neg hsome, if_neg hmode',
            if_neg (not_not.mpr hfree)]
          have hversion : ((0 : BitVec 16).setWidth 32 <<< 16) = 0#32 := by decide
          simp only [hversion, BitVec.or_zero]
  obtain ⟨hother, hcipher, hindexed⟩ := hs₁
  obtain ⟨s', hkey, hup⟩ := configureContextKey_up (s₁.store (mceCccfgr 1)
    ((s.regs (mceCccfgr 1) &&& ~~~(CCCFGR_VERSION_MASK ||| (MODE_MASK <<< 4))) ||| (mode <<< 4)))
    ctxkey
  refine ⟨s', hrun.trans hkey, hup.enabled, ?_, hup.key, ?_, hup.cipher.trans hcipher, ?_⟩
  · rw [hup.mode, store_self, modeField_set, hmode]
  · intro r hr
    have hlt : mceCccfgr 1 < mceCcnr0 1 := by decide
    rw [hup.other r hr, store_other _ _ (Nat.ne_of_lt hr), hother r (Nat.lt_trans hr hlt)]
  · intro h
    exact hup.indexed (hindexed h)

/-- The context is enabled for the mode of the call, with its key. -/
structure ContextUp (s : State) (c : Call) : Prop where
  enabled : s.regs (mceCccfgr 1) &&& CCCFGR_CCEN ≠ 0
  mode : (s.regs (mceCccfgr 1) >>> 4) &&& MODE_MASK = c.mode
  key : ∀ key, c.key = some key → ∀ i < 4, s.regs (mceCckeyr0 1 + i) = keyWord key i
  cr : s.regs mceCr = c.algo <<< 4
  cipher : s.cipher = c.algo.setWidth 8
  indexed : ∀ i ∈ s.indexed, i < 4

theorem configureContext_ivRight (hbasic : c.basic = true) (hctx : HasContext c.algo)
    (hiv : c.IvRight) :
    ∃ s, configureContext (latched c.algo) c c.algo = (s, EOK) ∧ ContextUp s c := by
  have hctx' : c.algo = CIPHER_AES128 ∨ c.algo = CIPHER_NOEKEON := hctx
  have hmode : c.mode &&& MODE_MASK = c.mode := by
    rcases (basic_cases hbasic).2.1 with h | h | h <;> rw [h] <;> decide
  have hfree : (latched c.algo).regs (mceCccfgr 1) &&& CCCFGR_CCEN = 0 := by
    have hzero : (latched c.algo).regs (mceCccfgr 1) = 0 :=
      store_other { reset with initialized := true } _ (by decide : mceCccfgr 1 ≠ mceCr)
    rw [hzero]
    decide
  have hcr : (latched c.algo).regs mceCr = c.algo <<< 4 :=
    store_self { reset with initialized := true } _ _
  obtain ⟨nonce, hnonce, hrun⟩ : ∃ nonce : Option (Nat → UInt8),
      (c.mode = MODE_STREAM ↔ nonce.isSome = true) ∧
      configureContext (latched c.algo) c c.algo =
        configureCipherContext (latched c.algo) 1 0 c.mode nonce c.key := by
    unfold Call.IvRight at hiv
    by_cases hstream : c.mode = MODE_STREAM
    · rw [if_pos hstream] at hiv
      refine ⟨c.iv, iff_of_true hstream hiv.2, ?_⟩
      rw [configureContext, if_pos hctx', if_pos hstream, if_neg (BitVec.not_lt.mpr hiv.1)]
    · rw [if_neg hstream] at hiv
      refine ⟨none, iff_of_false hstream (by simp), ?_⟩
      rw [configureContext, if_pos hctx', if_neg hstream, if_neg (not_not.mpr hiv)]
  obtain ⟨s, hs, henabled, hmode', hkey, hother, hcipher, hindexed⟩ :=
    configureCipherContext_up (latched c.algo) nonce c.key hmode hnonce hfree
  refine ⟨s, hrun.trans hs, henabled, hmode', hkey, ?_, hcipher, hindexed nofun⟩
  rw [hother mceCr (by decide), hcr]

/-- The region is set up or it is refused, with nothing stored. -/
theorem configureRegionInternal_cases (per : Periph) (s : State) (reg : Nat) (mode : BitVec 32)
    (first last : BitVec 32) :
    configureRegionInternal per s reg mode 1 first last = (s, -EINVAL) ∨
      (configureRegionInternal per s reg mode 1 first last).2 = EOK := by
  unfold configureRegionInternal
  repeat' split
  all_goals first | exact Or.inl rfl | exact Or.inr rfl

/-- A call that has the initial value it needs and fails leaves the context enabled. -/
theorem contextSteps_failed (hbasic : c.basic = true) (hctx : HasContext c.algo)
    (hiv : c.IvRight) (hfail : (contextSteps per (latched c.algo) c).2 < 0) :
    ContextUp (contextSteps per (latched c.algo) c).1 c := by
  obtain ⟨s, hs, hup⟩ := configureContext_ivRight hbasic hctx hiv
  simp only [contextSteps, hs, if_neg (by decide : ¬EOK < 0)] at hfail ⊢
  rcases configureRegionInternal_cases per s c.reg.toNat c.mode (per.region.1 + c.start)
    (per.region.1 + c.end_ - 1) with hrun | hrun
  · simp only [hrun, if_pos (by decide : -EINVAL < 0)]
    exact hup
  · simp only [hrun, if_neg (by decide : ¬EOK < 0)] at hfail
    exact absurd hfail (by decide)

/-- A driver whose context is in use by a cipher that has one. -/
structure Used (s : State) : Prop where
  cipher : HasContext (s.cipher.setWidth 32)
  enabled : s.regs (mceCccfgr 1) &&& CCCFGR_CCEN ≠ 0

theorem ContextUp.used {s : State} (h : ContextUp s c) (hctx : HasContext c.algo) : Used s := by
  refine ⟨?_, h.enabled⟩
  rw [h.cipher, hctx.setWidth.2]
  exact hctx

theorem configureCipherContext_used {s : State} (hs : Used s) (mode : BitVec 32)
    (nonce ctxkey : Option (Nat → UInt8)) :
    configureCipherContext s 1 0 mode nonce ctxkey = (s, -EINVAL) := by
  rw [configureCipherContext, if_neg (by decide), if_pos hs.enabled]
  simp only [ite_self]

/-- Every call fails while the context is in use, which it stays. -/
theorem configureRegion_used {s : State} (hs : Used s) :
    (configureRegion per s c).2 < 0 ∧ Used (configureRegion per s c).1 := by
  have hcipher : s.cipher ≠ 0 := by
    intro h
    have hctx := hs.cipher
    rw [h] at hctx
    rcases hctx with h | h <;> exact absurd h (by decide)
  by_cases hacc : c.basic = true ∧ s.cipher.setWidth 32 = c.algo
  · obtain ⟨hbasic, halgo⟩ := hacc
    have hctx : HasContext c.algo := halgo ▸ hs.cipher
    have hctx' : c.algo = CIPHER_AES128 ∨ c.algo = CIPHER_NOEKEON := hctx
    have hs' : Used { s with initialized := true } := ⟨hs.cipher, hs.enabled⟩
    have hcontext : configureContext { s with initialized := true } c c.algo =
        ({ s with initialized := true }, -EINVAL) := by
      rw [configureContext, if_pos hctx', configureCipherContext_used hs',
        configureCipherContext_used hs']
      simp only [ite_self]
    have hrun : configureRegion per s c = ({ s with initialized := true }, -EINVAL) := by
      rw [configureRegion_accepted hbasic fun _ => halgo, configureSteps_eq hctx,
        configurePer_used (by exact hcipher)]
      simp only [contextSteps, hcontext, if_pos (by decide : -EINVAL < 0)]
    rw [hrun]
    exact ⟨(by decide : -EINVAL < 0), hs'⟩
  · have hrun : configureRegion per s c = (s, -EINVAL) :=
      configureRegion_refused fun hbasic => ⟨hcipher, fun halgo => hacc ⟨hbasic, halgo⟩⟩
    rw [hrun]
    exact ⟨(by decide : -EINVAL < 0), hs⟩

/-- A driver that latched the cipher without a context, before a context was set up. -/
structure Contextless (s : State) : Prop where
  cipher : s.cipher = 0 ∨ s.cipher = 3
  mode : s.regs (mceCccfgr 1) = 0

theorem storeMasterKey_other (s : State) (reg : Nat) (flag : BitVec 32) {keysize : Nat}
    (key : Option (Nat → UInt8)) {r : Nat} (hr : reg + keysize / 4 ≤ r) (hsr : r ≠ mceSr) :
    (storeMasterKey s reg flag keysize key).regs r = s.regs r ∧
      (storeMasterKey s reg flag keysize key).cipher = s.cipher := by
  cases key with
  | none => exact ⟨rfl, rfl⟩
  | some key =>
      simp only [storeMasterKey]
      split
      · refine ⟨?_, storeKey_cipher s reg key keysize⟩
        rw [waitBusy, store_other _ _ hsr, storeKey_other _ _ _ _ (Or.inr hr)]
      · exact ⟨rfl, rfl⟩

/-- The registers of the contexts are behind those of the master keys. -/
theorem configurePer_context (s : State) (cipher : BitVec 32) (mk fmk : Option (Nat → UInt8)) :
    (configurePer s cipher mk fmk).regs (mceCccfgr 1) = s.regs (mceCccfgr 1) ∧
      (configurePer s cipher mk fmk).cipher = (selectCipher s cipher).cipher := by
  have hsize : (if cipher = CIPHER_AES256 then 32 else 16) / 4 ≤ 8 := by split <;> decide
  have hsr : mceCccfgr 1 ≠ mceSr := by decide
  have hfirst : mceMkeyr1 + (if cipher = CIPHER_AES256 then 32 else 16) / 4 ≤ mceCccfgr 1 :=
    Nat.le_trans (Nat.add_le_add_left hsize _) (by decide)
  have hfast : mceFmkeyr1 + (if cipher = CIPHER_AES256 then 32 else 16) / 4 ≤ mceCccfgr 1 :=
    Nat.add_le_add_left hsize _
  obtain ⟨hregs, hcipher⟩ :=
    storeMasterKey_other (selectCipher s cipher) mceMkeyr1 SR_MKVALID mk hfirst hsr
  obtain ⟨hregs', hcipher'⟩ := storeMasterKey_other (storeMasterKey (selectCipher s cipher)
    mceMkeyr1 SR_MKVALID _ mk) mceFmkeyr1 SR_FMKVALID fmk hfast hsr
  refine ⟨(hregs'.trans hregs).trans ?_, hcipher'.trans hcipher⟩
  unfold selectCipher
  split
  · exact store_other s ((s.regs mceCr &&& ~~~CR_CIPHERSEL_MASK) ||| (cipher <<< 4))
      (by decide : mceCccfgr 1 ≠ mceCr)
  · rfl

/-- The region is not given to the cipher without a context. -/
theorem configureRegion_aes256 {s : State} (hs : Contextless s) (hbasic : c.basic = true)
    (halgo : c.algo = CIPHER_AES256) :
    (configureRegion per s c).2 < 0 ∧ Contextless (configureRegion per s c).1 ∧
      (configureRegion per s c).1.cipher = 3 := by
  have hctx : ¬(c.algo = CIPHER_AES128 ∨ c.algo = CIPHER_NOEKEON) := by
    rw [halgo]
    decide
  have hmode : (0 >>> 4) &&& MODE_MASK ≠ c.mode := by
    rcases (basic_cases hbasic).2.1 with h | h | h <;> rw [h] <;> decide
  have hlatch : s.cipher ≠ 0 → s.cipher.setWidth 32 = c.algo := by
    intro hne
    rw [hs.cipher.resolve_left hne, halgo]
    rfl
  obtain ⟨s₁, hper, hregs, hcipher⟩ : ∃ s₁, configurePer { s with initialized := true } c.algo
      (if c.algo = CIPHER_AES256 ∧ c.mode = MODE_NBLOCK then c.key else none)
      (if c.algo = CIPHER_AES256 ∧ c.mode = MODE_FBLOCK then c.key else none) = s₁ ∧
      s₁.regs (mceCccfgr 1) = 0 ∧ s₁.cipher = 3 := by
    obtain ⟨hregs, hcipher⟩ := configurePer_context { s with initialized := true } c.algo
      (if c.algo = CIPHER_AES256 ∧ c.mode = MODE_NBLOCK then c.key else none)
      (if c.algo = CIPHER_AES256 ∧ c.mode = MODE_FBLOCK then c.key else none)
    refine ⟨_, rfl, hregs.trans hs.mode, hcipher.trans ?_⟩
    unfold selectCipher
    by_cases hzero : s.cipher = 0
    · rw [if_pos hzero, halgo]
      rfl
    · rw [if_neg hzero]
      exact hs.cipher.resolve_left hzero
  have hregion : configureRegionInternal per s₁ c.reg.toNat c.mode 1 (per.region.1 + c.start)
      (per.region.1 + c.end_ - 1) = (s₁, -EINVAL) := by
    rw [configureRegionInternal, if_neg (by decide), if_neg fun h => absurd h.2 (by decide),
      if_pos ⟨by decide, by rw [hregs]; exact hmode⟩]
  have hrun : configureRegion per s c = (s₁, -EINVAL) := by
    rw [configureRegion_accepted hbasic hlatch]
    simp only [configureSteps, hper, configureContext, if_neg hctx, if_neg (by decide : ¬EOK < 0),
      hregion, if_pos (by decide : -EINVAL < 0)]
  rw [hrun]
  exact ⟨(by decide : -EINVAL < 0), ⟨Or.inr hcipher, hregs⟩, hcipher⟩

end

end Plo.Devices.Mce
