import Plo.Base.Word
import Plo.Devices.MceRuns

/-!
A supported call after calls that all failed. It succeeds unless one of them latched another
cipher or left the context enabled, and unless it is a call of the cipher without a context.
-/
namespace Plo.Devices.Mce

/-- The first register of the key of a call, and the words of the key. -/
def Call.keyReg (c : Call) : Nat :=
  if c.algo = CIPHER_AES256 then if c.mode = MODE_NBLOCK then mceMkeyr1 else mceFmkeyr1
  else mceCckeyr0 1

def Call.keyWords (c : Call) : Nat := if c.algo = CIPHER_AES256 then 8 else 4

/-- The registers hold the mode, the range, the cipher and the key of the call. -/
structure Configured (per : Periph) (s : State) (c : Call) : Prop where
  enabled : s.regs (mceRegcr c.reg.toNat) &&& REGCR_BREN ≠ 0
  mode : (s.regs (mceRegcr c.reg.toNat) &&& REGCR_ENC_MASK) >>> 14 = c.mode
  first : s.regs (mceSaddr c.reg.toNat) = per.region.1 + c.start
  last : s.regs (mceEaddr c.reg.toNat) = per.region.1 + c.end_ - 1
  cipher : (s.regs mceCr &&& CR_CIPHERSEL_MASK) >>> 4 = c.algo
  key : ∀ key, c.key = some key → ∀ i < c.keyWords, s.regs (c.keyReg + i) = keyWord key i

/-- The call succeeds with the registers set up for it, and the obfuscation table was only
indexed within its entries. -/
def CallRight (per : Periph) (s : State) (c : Call) : Prop :=
  (configureRegion per s c).2 = EOK ∧ Configured per (configureRegion per s c).1 c ∧
    ∀ i ∈ (configureRegion per s c).1.indexed, i < 4

section
variable {per : Periph} {s : State} {c : Call}

/-- The bits of the mode in the word that is stored for a region. -/
theorem encField_store (t mode : BitVec 32) :
    ((((t &&& ~~~(REGCR_CTXID_MASK ||| REGCR_ENC_MASK)) ||| (mode <<< 14) |||
      (BitVec.ofNat 32 1 <<< 9)) ||| REGCR_BREN) &&& REGCR_ENC_MASK) >>> 14 = mode &&& 3 := by
  refine BitVec.eq_of_getLsbD_eq ?_
  intro i hi
  interval_cases i <;> simp [REGCR_CTXID_MASK, REGCR_ENC_MASK, REGCR_BREN]

theorem enabled_bren (t : BitVec 32) : (t ||| REGCR_BREN) &&& REGCR_BREN ≠ 0 := by
  intro h
  have hbit := congrArg (BitVec.getLsbD · 0) h
  simp [REGCR_BREN] at hbit

theorem cipherField_lock (cipher : BitVec 32) :
    ((cipher <<< 4 ||| CR_GLOCK) &&& CR_CIPHERSEL_MASK) >>> 4 = cipher &&& 3 := by
  refine BitVec.eq_of_getLsbD_eq ?_
  intro i hi
  interval_cases i <;> simp [CR_GLOCK, CR_CIPHERSEL_MASK]

/-- The global lock only changes the control register. -/
theorem configureLock_global (s : State) :
    configureLock s GLOBALLOCK = s.store mceCr (s.regs mceCr ||| CR_GLOCK) := by
  have hkey : ¬(GLOBALLOCK &&& CTX1KEYLOCK ≠ 0) := by decide
  have hkey' : ¬(GLOBALLOCK &&& CTX2KEYLOCK ≠ 0) := by decide
  have hctx : ¬(GLOBALLOCK &&& CTX1LOCK ≠ 0) := by decide
  have hctx' : ¬(GLOBALLOCK &&& CTX2LOCK ≠ 0) := by decide
  have hmaster : ¬(GLOBALLOCK &&& MASTERLOCK ≠ 0) := by decide
  have hglobal : GLOBALLOCK &&& GLOBALLOCK ≠ 0 := by decide
  simp only [configureLock, lockBit, if_neg hkey, if_neg hkey', if_neg hctx, if_neg hctx',
    if_neg hmaster, if_pos hglobal]

/-- The first and the last address of a range inside the window. -/
theorem region_range (per : Periph) {start end_ : BitVec 32} (hstart : start % 4096 = 0)
    (hend : end_ % 4096 = 0) (hlt : start < end_) (htop : end_ ≤ 0x10000000) :
    ¬(per.region.1 + end_ - 1 < per.region.1 + start) ∧
      ¬(per.region.1 + start < per.region.1 ∨ per.region.1 + end_ - 1 > per.region.2) ∧
      ¬((per.region.1 + start) % 4096 ≠ 0 ∨ (per.region.1 + end_ - 1 + 1) % 4096 ≠ 0) := by
  have hstart' : start.toNat % 4096 = 0 := congrArg BitVec.toNat hstart
  have hend' : end_.toNat % 4096 = 0 := congrArg BitVec.toNat hend
  rw [BitVec.lt_def] at hlt
  rw [BitVec.le_def] at htop
  have htop' : end_.toNat ≤ 0x10000000 := htop
  have hback : per.region.1 + end_ - 1 + 1 = per.region.1 + end_ := BitVec.sub_add_cancel _ _
  rw [hback]
  have hbase : per.region.1.toNat % 4096 = 0 ∧
      per.region.1.toNat + 0x10000000 = per.region.2.toNat + 1 ∧ per.region.2.toNat < 0xf0000000 := by
    cases per <;> decide
  have hfirst : (per.region.1 + start).toNat = per.region.1.toNat + start.toNat := by
    rw [BitVec.toNat_add, Nat.mod_eq_of_lt (by omega)]
  have hstop : (per.region.1 + end_).toNat = per.region.1.toNat + end_.toNat := by
    rw [BitVec.toNat_add, Nat.mod_eq_of_lt (by omega)]
  have hlast : (per.region.1 + end_ - 1).toNat = per.region.1.toNat + end_.toNat - 1 := by
    have hone : (1 : BitVec 32).toNat = 1 := rfl
    rcases toNat_sub_cases (per.region.1 + end_) 1 with ⟨-, h⟩ | ⟨h, -⟩
    · rw [h, hstop, hone]
    · omega
  have hmod (x : BitVec 32) (hx : x.toNat % 4096 = 0) : ¬x % 4096 ≠ 0 := by
    rw [not_not]
    refine BitVec.eq_of_toNat_eq ?_
    rw [BitVec.toNat_umod]
    exact hx
  refine ⟨?_, ?_, ?_⟩
  · rw [BitVec.lt_def, hlast, hfirst]
    omega
  · rw [BitVec.lt_def, gt_iff_lt, BitVec.lt_def, hlast, hfirst]
    omega
  · rw [not_or]
    exact ⟨hmod _ (by omega), hmod _ (by omega)⟩

theorem mode_mask (hbasic : c.basic = true) : c.mode &&& 3 = c.mode := by
  rcases (basic_cases hbasic).2.1 with h | h | h <;> rw [h] <;> decide

/-- A context that is set up for a supported call is followed by its region. -/
theorem configureRegionInternal_supported (hs : ContextUp s c) (h : c.Supported) :
    ∃ s', configureRegionInternal per s c.reg.toNat c.mode 1 (per.region.1 + c.start)
        (per.region.1 + c.end_ - 1) = (s', EOK) ∧
      s'.regs (mceRegcr c.reg.toNat) &&& REGCR_BREN ≠ 0 ∧
      (s'.regs (mceRegcr c.reg.toNat) &&& REGCR_ENC_MASK) >>> 14 = c.mode ∧
      s'.regs (mceSaddr c.reg.toNat) = per.region.1 + c.start ∧
      s'.regs (mceEaddr c.reg.toNat) = per.region.1 + c.end_ - 1 ∧
      (∀ r, r < 0x10 ∨ 0x20 ≤ r → s'.regs r = s.regs r) ∧ s'.indexed = s.indexed := by
  obtain ⟨-, -, -, hreg, hstart, hend⟩ := basic_cases h.basic
  obtain ⟨horder, hwindow, halign⟩ := region_range per hstart hend h.start h.end_
  have hreg' : c.reg.toNat < 4 := by omega
  obtain ⟨t, ht⟩ : ∃ t, t = (s.regs (mceRegcr c.reg.toNat) &&&
      ~~~(REGCR_CTXID_MASK ||| REGCR_ENC_MASK)) ||| (c.mode <<< 14) |||
      (BitVec.ofNat 32 1 <<< 9) := ⟨_, rfl⟩
  have hsaddr : mceSaddr c.reg.toNat ≠ mceRegcr c.reg.toNat := by simp only [mceSaddr, mceRegcr]; omega
  have headdr : mceEaddr c.reg.toNat ≠ mceRegcr c.reg.toNat := by simp only [mceEaddr, mceRegcr]; omega
  have hends : mceSaddr c.reg.toNat ≠ mceEaddr c.reg.toNat := by simp only [mceSaddr, mceEaddr]; omega
  have hrun : configureRegionInternal per s c.reg.toNat c.mode 1 (per.region.1 + c.start)
      (per.region.1 + c.end_ - 1) =
      ((((s.store (mceRegcr c.reg.toNat) t).store (mceSaddr c.reg.toNat)
        (per.region.1 + c.start)).store (mceEaddr c.reg.toNat) (per.region.1 + c.end_ - 1)).store
          (mceRegcr c.reg.toNat) (t ||| REGCR_BREN), EOK) := by
    rw [configureRegionInternal, if_neg (by decide), if_neg fun h => absurd h.2 (by decide),
      if_neg fun h => h.2 hs.mode, if_neg horder, if_neg hwindow, if_neg halign]
    simp only [← ht, store_other _ _ headdr.symm, store_other _ _ hsaddr.symm, store_self]
  refine ⟨_, hrun, ?_, ?_, ?_, ?_, ?_, rfl⟩
  · rw [store_self]
    exact enabled_bren t
  · rw [store_self, ht, encField_store, mode_mask h.basic]
  · rw [store_other _ _ hsaddr, store_other _ _ hends, store_self]
  · rw [store_other _ _ headdr, store_self]
  · intro r hr
    have hregcr : r ≠ mceRegcr c.reg.toNat := by simp only [mceRegcr]; omega
    have hr₁ : r ≠ mceSaddr c.reg.toNat := by simp only [mceSaddr]; omega
    have hr₂ : r ≠ mceEaddr c.reg.toNat := by simp only [mceEaddr]; omega
    rw [store_other _ _ hregcr, store_other _ _ hr₂, store_other _ _ hr₁, store_other _ _ hregcr]

/-- A supported call of a cipher with a context succeeds after nothing but the latch. -/
theorem callRight_latched (h : c.Supported) (hctx : HasContext c.algo)
    (hs : s = reset ∨ s = latched c.algo) : CallRight per s c := by
  obtain ⟨s₁, hcontext, hup⟩ := configureContext_ivRight h.basic hctx h.iv
  obtain ⟨s₂, hregion, hbren, hmode, hfirst, hlast, hother, hindexed⟩ :=
    @configureRegionInternal_supported per s₁ c hup h
  have hrun : configureRegion per s c = (s₂.store mceCr (s₂.regs mceCr ||| CR_GLOCK), EOK) := by
    rw [configureRegion_latched h.basic hctx hs]
    simp only [contextSteps, hcontext, hregion, if_neg (by decide : ¬EOK < 0),
      configureLock_global]
  obtain ⟨-, -, -, hreg, -, -⟩ := basic_cases h.basic
  have hregcr : mceRegcr c.reg.toNat ≠ mceCr := by simp only [mceRegcr, mceCr]; omega
  have hsaddr : mceSaddr c.reg.toNat ≠ mceCr := by simp only [mceSaddr, mceCr]; omega
  have headdr : mceEaddr c.reg.toNat ≠ mceCr := by simp only [mceEaddr, mceCr]; omega
  rw [CallRight, hrun]
  refine ⟨rfl, ⟨?_, ?_, ?_, ?_, ?_, ?_⟩, ?_⟩
  · rw [store_other _ _ hregcr]
    exact hbren
  · rw [store_other _ _ hregcr]
    exact hmode
  · rw [store_other _ _ hsaddr]
    exact hfirst
  · rw [store_other _ _ headdr]
    exact hlast
  · rw [store_self, hother mceCr (Or.inl (by decide)), hup.cr, cipherField_lock]
    rcases hctx with h | h <;> rw [h] <;> decide
  · intro key hkey i hi
    rw [Call.keyWords, if_neg hctx.ne_aes256] at hi
    rw [Call.keyReg, if_neg hctx.ne_aes256]
    have hne : mceCckeyr0 1 + i ≠ mceCr := by simp only [mceCckeyr0, mceCr, if_true]; omega
    have hge : mceCckeyr0 1 + i < 0x10 ∨ 0x20 ≤ mceCckeyr0 1 + i := by
      simp only [mceCckeyr0, if_true]
      omega
    rw [store_other _ _ hne, hother _ hge]
    exact hup.key key hkey i hi
  · intro i hi
    exact hup.indexed i (hindexed ▸ hi)

end

/-- The state after calls, whatever they return. -/
def run (per : Periph) (s : State) (calls : List Call) : State :=
  calls.foldl (fun s c => (configureRegion per s c).1) s

/-- All the calls fail where they are made. -/
def AllFail (per : Periph) : State → List Call → Prop
  | _, [] => True
  | s, c :: calls =>
    (configureRegion per s c).2 < 0 ∧ AllFail per (configureRegion per s c).1 calls

/-- The first call whose parameters are accepted, if there is one, is of this cipher, no such
call of it has the initial value it needs, and it has a context. -/
structure Harmless (calls : List Call) (last : Call) : Prop where
  context : HasContext last.algo
  first : ∀ c, calls.find? Call.basic = some c → c.algo = last.algo
  iv : ∀ c ∈ calls, c.basic → c.algo = last.algo → ¬c.IvRight

section
variable {per : Periph} {s : State} {calls : List Call} {last : Call}

theorem run_used (hs : Used s) : Used (run per s calls) := by
  induction calls generalizing s with
  | nil => exact hs
  | cons c calls ih => exact ih (configureRegion_used hs).2

/-- Nothing but calls of the cipher that is latched is not refused. -/
theorem run_contextless (hs : Contextless s) (hcipher : s.cipher = 3) :
    Contextless (run per s calls) ∧ (run per s calls).cipher = 3 := by
  induction calls generalizing s with
  | nil => exact ⟨hs, hcipher⟩
  | cons c calls ih =>
      by_cases hacc : c.basic = true ∧ c.algo = CIPHER_AES256
      · obtain ⟨-, hs', hcipher'⟩ := @configureRegion_aes256 per _ _ hs hacc.1 hacc.2
        exact ih hs' hcipher'
      · have hrun : configureRegion per s c = (s, -EINVAL) := by
          refine configureRegion_refused ?_
          intro hbasic
          rw [hcipher]
          refine ⟨by decide, fun h => hacc ⟨hbasic, h.symm⟩⟩
        rw [run, List.foldl_cons, hrun]
        exact ih hs hcipher

/-- A call that is not of the cipher that is latched is refused. -/
theorem configureRegion_otherCipher {cipher : BitVec 32} (hctx : HasContext cipher) {c : Call}
    (hacc : ¬(c.basic = true ∧ c.algo = cipher)) :
    configureRegion per (latched cipher) c = (latched cipher, -EINVAL) := by
  refine configureRegion_refused ?_
  intro hbasic
  refine ⟨hctx.setWidth.1, fun heq => hacc ⟨hbasic, ?_⟩⟩
  exact (hctx.setWidth.2.symm.trans heq).symm

/-- A driver that latched a cipher with a context, after calls that fail. -/
theorem run_latched {cipher : BitVec 32} (hctx : HasContext cipher)
    (hfail : AllFail per (latched cipher) calls) :
    (run per (latched cipher) calls = latched cipher ∧
        ∀ c ∈ calls, c.basic → c.algo = cipher → ¬c.IvRight) ∨
      Used (run per (latched cipher) calls) ∧
        ∃ c ∈ calls, c.basic ∧ c.algo = cipher ∧ c.IvRight := by
  induction calls with
  | nil => exact Or.inl ⟨rfl, nofun⟩
  | cons c calls ih =>
      obtain ⟨hc, hcalls⟩ := hfail
      rw [run, List.foldl_cons]
      by_cases hacc : c.basic = true ∧ c.algo = cipher
      · obtain ⟨hbasic, rfl⟩ := hacc
        have hrun : configureRegion per (latched c.algo) c = contextSteps per (latched c.algo) c :=
          configureRegion_latched hbasic hctx (Or.inr rfl)
        by_cases hiv : c.IvRight
        · right
          rw [hrun] at hc ⊢
          refine ⟨run_used ((contextSteps_failed hbasic hctx hiv hc).used hctx), c, ?_⟩
          exact ⟨List.mem_cons_self, hbasic, rfl, hiv⟩
        · have hstate : (configureRegion per (latched c.algo) c).1 = latched c.algo := by
            simp only [hrun, contextSteps, configureContext_ivWrong _ hctx hiv,
              if_pos (by decide : -EINVAL < 0)]
          rw [hstate] at hcalls ⊢
          rcases ih hcalls with ⟨hlatched, hwrong⟩ | ⟨hused, c', hc', hright⟩
          · refine Or.inl ⟨hlatched, ?_⟩
            intro c' hc'
            rcases List.mem_cons.mp hc' with rfl | hc'
            · exact fun _ _ => hiv
            · exact hwrong c' hc'
          · exact Or.inr ⟨hused, c', List.mem_cons_of_mem _ hc', hright⟩
      · have hstate : (configureRegion per (latched cipher) c).1 = latched cipher := by
          rw [configureRegion_otherCipher hctx hacc]
        rw [hstate] at hcalls ⊢
        rcases ih hcalls with ⟨hlatched, hwrong⟩ | ⟨hused, c', hc', hright⟩
        · refine Or.inl ⟨hlatched, ?_⟩
          intro c' hc'
          rcases List.mem_cons.mp hc' with rfl | hc'
          · exact fun hbasic halgo => absurd ⟨hbasic, halgo⟩ hacc
          · exact hwrong c' hc'
        · exact Or.inr ⟨hused, c', List.mem_cons_of_mem _ hc', hright⟩

/-- A driver that was not called before, after calls that fail. The first of them with
accepted parameters decides which cipher is latched. -/
theorem run_reset (hfail : AllFail per reset calls) :
    (calls.find? Call.basic = none ∧ run per reset calls = reset) ∨
      ∃ c, calls.find? Call.basic = some c ∧
        ((c.algo = CIPHER_AES256 ∧ Contextless (run per reset calls) ∧
            (run per reset calls).cipher = 3) ∨
          HasContext c.algo ∧
            ((run per reset calls = latched c.algo ∧
                ∀ c' ∈ calls, c'.basic → c'.algo = c.algo → ¬c'.IvRight) ∨
              Used (run per reset calls) ∧
                ∃ c' ∈ calls, c'.basic ∧ c'.algo = c.algo ∧ c'.IvRight)) := by
  induction calls with
  | nil => exact Or.inl ⟨rfl, rfl⟩
  | cons c calls ih =>
      by_cases hbasic : c.basic = true
      · refine Or.inr ⟨c, List.find?_cons_of_pos hbasic, ?_⟩
        rcases or_assoc.mpr (basic_cases hbasic).1 with hctx | haes
        · have hsame : configureRegion per reset c = configureRegion per (latched c.algo) c := by
            rw [configureRegion_latched hbasic hctx (Or.inl rfl),
              configureRegion_latched hbasic hctx (Or.inr rfl)]
          have hrun : run per reset (c :: calls) = run per (latched c.algo) (c :: calls) := by
            rw [run, run, List.foldl_cons, List.foldl_cons, hsame]
          have hfail' : AllFail per (latched c.algo) (c :: calls) := by
            rw [AllFail, ← hsame]
            exact hfail
          rw [hrun]
          exact Or.inr ⟨hctx, run_latched hctx hfail'⟩
        · have hfirst : Contextless reset := ⟨Or.inl rfl, rfl⟩
          obtain ⟨-, hs, hcipher⟩ := @configureRegion_aes256 per _ _ hfirst hbasic haes
          have hrun : run per reset (c :: calls) = run per (configureRegion per reset c).1 calls := rfl
          rw [hrun]
          exact Or.inl ⟨haes, run_contextless hs hcipher⟩
      · have hrefused : configureRegion per reset c = (reset, -EINVAL) :=
          configureRegion_refused fun h => absurd h hbasic
        rw [run, List.foldl_cons, hrefused, List.find?_cons_of_neg hbasic]
        have hcalls : AllFail per reset calls := by
          have htail := hfail.2
          rw [hrefused] at htail
          exact htail
        rcases ih hcalls with hnone | ⟨c', hc', hcases⟩
        · exact Or.inl hnone
        · refine Or.inr ⟨c', hc', hcases.imp_right fun h => ⟨h.1, h.2.imp ?_ ?_⟩⟩
          · rintro ⟨hlatched, hwrong⟩
            refine ⟨hlatched, ?_⟩
            intro c'' hc''
            rcases List.mem_cons.mp hc'' with rfl | hc''
            · exact fun h => absurd h hbasic
            · exact hwrong c'' hc''
          · rintro ⟨hused, c'', hc'', hright⟩
            exact ⟨hused, c'', List.mem_cons_of_mem _ hc'', hright⟩

/-- A call of the cipher without a context fails, whatever calls came before. -/
theorem configureRegion_contextless (hs : Contextless s) (hlast : last.basic = true)
    (hcipher : s.cipher = 3 ∨ last.algo = CIPHER_AES256) :
    (configureRegion per s last).2 < 0 := by
  by_cases haes : last.algo = CIPHER_AES256
  · exact (configureRegion_aes256 hs hlast haes).1
  · have hlatch : s.cipher = 3 := hcipher.resolve_right haes
    have hrun : configureRegion per s last = (s, -EINVAL) := by
      refine configureRegion_refused fun _ => ?_
      rw [hlatch]
      exact ⟨by decide, fun h => haes h.symm⟩
    rw [hrun]
    exact (by decide : -EINVAL < 0)

/-- After calls that all failed, a supported call succeeds with its registers set up, and the
obfuscation table stays within its entries, exactly if the calls were harmless to it. -/
theorem configureRegion_afterFailures (hfail : AllFail per reset calls) (hlast : last.Supported) :
    CallRight per (run per reset calls) last ↔ Harmless calls last := by
  have hfailed (s : State) (h : (configureRegion per s last).2 < 0) : ¬CallRight per s last :=
    fun hright => absurd (hright.1 ▸ h) (by decide)
  constructor
  · intro hright
    rcases run_reset hfail with ⟨hnone, hrun⟩ | ⟨c, hc, hcases⟩
    · rw [hrun] at hright
      refine ⟨?_, by rw [hnone]; exact nofun, ?_⟩
      · rcases or_assoc.mpr (basic_cases hlast.basic).1 with hctx | haes
        · exact hctx
        · exact absurd hright (hfailed _ (configureRegion_contextless ⟨Or.inl rfl, rfl⟩ hlast.basic
            (Or.inr haes)))
      · intro c hc hbasic
        exact absurd hbasic (List.find?_eq_none.mp hnone c hc)
    · rcases hcases with ⟨-, hs, hcipher⟩ | ⟨hctx, ⟨hrun, hwrong⟩ | ⟨hused, -⟩⟩
      · exact absurd hright (hfailed _ (configureRegion_contextless hs hlast.basic (Or.inl hcipher)))
      · have halgo : last.algo = c.algo := by
          by_contra hne
          rw [hrun] at hright
          refine absurd hright (hfailed _ ?_)
          rw [configureRegion_otherCipher hctx fun h => hne h.2]
          exact (by decide : -EINVAL < 0)
        refine ⟨halgo ▸ hctx, ?_, ?_⟩
        · intro c' hc'
          rw [halgo]
          exact congrArg Call.algo (Option.some.inj (hc'.symm.trans hc))
        · rw [halgo]
          exact hwrong
      · exact absurd hright (hfailed _ (configureRegion_used hused).1)
  · intro hharmless
    refine callRight_latched hlast hharmless.context ?_
    rcases run_reset hfail with ⟨-, hrun⟩ | ⟨c, hc, hcases⟩
    · exact Or.inl hrun
    · have halgo := hharmless.first c hc
      rcases hcases with ⟨haes, -⟩ | ⟨-, ⟨hrun, -⟩ | ⟨-, c', hc', hbasic, halgo', hright⟩⟩
      · exact absurd (halgo.symm.trans haes) hharmless.context.ne_aes256
      · rw [← halgo]
        exact Or.inr hrun
      · exact absurd hright (hharmless.iv c' hc' hbasic (halgo'.trans halgo))

end

/-- A call with the key 0, 1, 2 and so on for the second page to the third of the window. -/
def pagesCall (algo mode : BitVec 32) (iv : Option (Nat → UInt8)) : Call :=
  { reg := 0, start := 0x1000, end_ := 0x3000, algo := algo, mode := mode
    key := some UInt8.ofNat, iv := iv, ivSize := if iv.isSome then 8 else 0 }

/-- A call in stream mode without an initial value fails, and one with it succeeds after it. -/
theorem configureRegion_secondTry :
    CallRight .mce2 (run .mce2 reset [pagesCall 1 MODE_STREAM none])
      (pagesCall 1 MODE_STREAM (some UInt8.ofNat)) := by
  refine (configureRegion_afterFailures ?_ ⟨by decide, by decide, by decide, by decide⟩).mpr
    ⟨Or.inl rfl, ?_, ?_⟩
  · exact ⟨by decide +kernel, trivial⟩
  · rintro c ⟨⟩
    rfl
  · intro c hc _ _
    rw [List.mem_singleton.mp hc]
    decide

/-- AES256 fails on a driver that was not called before. -/
theorem configureRegion_aes256Fails :
    (pagesCall 3 MODE_NBLOCK none).Supported ∧ AllFail .mce1 reset [] ∧
      (configureRegion .mce1 (run .mce1 reset []) (pagesCall 3 MODE_NBLOCK none)).2 = -EINVAL ∧
      ¬CallRight .mce1 (run .mce1 reset []) (pagesCall 3 MODE_NBLOCK none) := by
  have hret : (configureRegion .mce1 (run .mce1 reset []) (pagesCall 3 MODE_NBLOCK none)).2 =
      -EINVAL := by decide +kernel
  refine ⟨⟨by decide, by decide, by decide, by decide⟩, trivial, hret, ?_⟩
  exact fun h => absurd (hret.symm.trans h.1) (by decide)

end Plo.Devices.Mce
