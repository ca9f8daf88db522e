import Mathlib.Tactic.IntervalCases
import Plo.Sbi.Exceptions

/-!
What becomes of an illegal instruction of U- or S-mode. Every trap that returns is
either an emulated read of a counter or a trap into S-mode as the hardware makes one.
The instructions that stop the hart are those with the opcode SYSTEM that neither name
a register of the floating-point unit nor only read a counter.
-/
namespace Plo.Sbi

section Fields
variable (insn : BitVec 64)

def IsSystem : Prop := insn.extractLsb' 0 7 = 0x73#7

/-- The register an instruction accesses. -/
def csrOf : BitVec 32 := (insn.extractLsb' 20 12).setWidth 32

def rdOf : Nat := (insn.extractLsb' 7 5).toNat
def rs1Of : Nat := (insn.extractLsb' 15 5).toNat
def funct3Of : Nat := (insn.extractLsb' 12 3).toNat

def NamesFpCsr : Prop := csrOf insn = CSR_FFLAGS ∨ csrOf insn = CSR_FRM ∨ csrOf insn = CSR_FCSR

/-- One of the instructions that set or clear bits, with no bits to set or clear, on a
register that counts. -/
structure ReadsCounter : Prop where
  counter : csrOf insn = CSR_TIME ∨ csrOf insn = CSR_INSTRET ∨ csrOf insn = CSR_CYCLE
  setsOrClears : funct3Of insn = 2 ∨ funct3Of insn = 3 ∨ funct3Of insn = 6 ∨ funct3Of insn = 7
  noBits : rs1Of insn = 0

variable {insn}

/-- A field that is shifted down and masked. -/
theorem shift_mask (x : BitVec 64) {start len : Nat} (h : len ≤ 64) :
    (x >>> start) &&& BitVec.ofNat 64 (2 ^ len - 1) = (x.extractLsb' start len).setWidth 64 := by
  apply BitVec.eq_of_toNat_eq
  have hmask : 2 ^ len - 1 < 2 ^ 64 :=
    Nat.lt_of_lt_of_le (Nat.sub_lt (Nat.two_pow_pos len) Nat.one_pos)
      (Nat.pow_le_pow_right Nat.two_pos h)
  have hfield : x.toNat >>> start % 2 ^ len < 2 ^ 64 :=
    Nat.lt_of_lt_of_le (Nat.mod_lt _ (Nat.two_pow_pos len))
      (Nat.pow_le_pow_right Nat.two_pos h)
  rw [BitVec.toNat_and, BitVec.toNat_ushiftRight, BitVec.toNat_ofNat, Nat.mod_eq_of_lt hmask,
    Nat.and_two_pow_sub_one_eq_mod, BitVec.toNat_setWidth, BitVec.extractLsb'_toNat,
    Nat.mod_eq_of_lt hfield]

theorem isSystem_iff (insn : BitVec 64) :
    (insn &&& 3 = 3 ∧ (insn &&& 0x7c) >>> 2 = 0x1c) ↔ IsSystem insn := by
  have hlow : insn &&& 0x7f = (insn.extractLsb' 0 7).setWidth 64 := by
    have hmask := @shift_mask insn 0 7 (by decide)
    rw [BitVec.ushiftRight_zero] at hmask
    exact hmask
  have htwo : insn &&& 3 = (insn.extractLsb' 0 7).setWidth 64 &&& 3 := by
    rw [← hlow, BitVec.and_assoc]
    rfl
  have hfive : insn &&& 0x7c = (insn.extractLsb' 0 7).setWidth 64 &&& 0x7c := by
    rw [← hlow, BitVec.and_assoc]
    rfl
  have hall : ∀ x : BitVec 7, (x.setWidth 64 &&& 3#64 = 3#64 ∧
      (x.setWidth 64 &&& 0x7c#64) >>> 2 = 0x1c#64) ↔ x = 0x73#7 := by decide +kernel
  rw [htwo, hfive]
  exact hall _

/-- The fields as the handler takes them out of the word. -/
theorem fields_eq (insn : BitVec 64) :
    ((insn >>> 20) &&& 0xfff).setWidth 32 = csrOf insn ∧
      (((insn >>> 15) &&& 0x1f).setWidth 32 : BitVec 32) = BitVec.ofNat 32 (rs1Of insn) ∧
      (((insn >>> 7) &&& 0x1f).setWidth 32 : BitVec 32).toNat = rdOf insn ∧
      ((insn >>> 12) &&& 0x7).toNat = funct3Of insn := by
  have hcsr : (insn >>> 20) &&& 0xfff = (insn.extractLsb' 20 12).setWidth 64 :=
    @shift_mask insn 20 12 (by decide)
  have hrs1 : (insn >>> 15) &&& 0x1f = (insn.extractLsb' 15 5).setWidth 64 :=
    @shift_mask insn 15 5 (by decide)
  have hrd : (insn >>> 7) &&& 0x1f = (insn.extractLsb' 7 5).setWidth 64 :=
    @shift_mask insn 7 5 (by decide)
  have hfunct3 : (insn >>> 12) &&& 0x7 = (insn.extractLsb' 12 3).setWidth 64 :=
    @shift_mask insn 12 3 (by decide)
  have hrdLt := (insn.extractLsb' 7 5).isLt
  have hfunct3Lt := (insn.extractLsb' 12 3).isLt
  rw [hcsr, hrs1, hrd, hfunct3]
  refine ⟨?_, ?_, ?_, ?_⟩
  · exact BitVec.setWidth_setWidth_of_le _ (by decide)
  · rw [BitVec.setWidth_setWidth_of_le _ (by decide), ← BitVec.ofNat_toNat]
    rfl
  · rw [BitVec.setWidth_setWidth_of_le _ (by decide), BitVec.toNat_setWidth]
    exact Nat.mod_eq_of_lt (by omega)
  · rw [BitVec.toNat_setWidth]
    exact Nat.mod_eq_of_lt (by omega)

end Fields

section System
variable {env : Surroundings} {s : TrapState}

/-- The operation is one that writes nothing. -/
theorem csrOperation_quiet (insn : BitVec 64) (csrVal rs1Val : BitVec 64) :
    (∃ val, csrOperation (funct3Of insn) csrVal rs1Val (BitVec.ofNat 32 (rs1Of insn)) =
        some (val, 0)) ↔
      (funct3Of insn = 2 ∨ funct3Of insn = 3 ∨ funct3Of insn = 6 ∨ funct3Of insn = 7) ∧
        rs1Of insn = 0 := by
  have hfunct3 : funct3Of insn < 8 := (insn.extractLsb' 12 3).isLt
  have hrs1 : BitVec.ofNat 32 (rs1Of insn) = 0#32 ↔ rs1Of insn = 0 := by
    have hlt : rs1Of insn < 32 := (insn.extractLsb' 15 5).isLt
    rw [← BitVec.toNat_inj, BitVec.toNat_ofNat, Nat.mod_eq_of_lt (by omega)]
    rfl
  generalize funct3Of insn = funct3 at hfunct3 ⊢
  generalize BitVec.ofNat 32 (rs1Of insn) = rs1 at hrs1 ⊢
  interval_cases funct3 <;> simp [csrOperation, ← hrs1]

theorem csrEmulateRead_isSome_iff (csr : BitVec 32) :
    (csrEmulateRead env csr).isSome ↔ csr = CSR_TIME ∨ csr = CSR_INSTRET ∨ csr = CSR_CYCLE := by
  rw [csrEmulateRead]
  by_cases htime : csr = CSR_TIME
  · rw [if_pos htime]
    exact iff_of_true rfl (.inl htime)
  · by_cases hinstret : csr = CSR_INSTRET
    · rw [if_neg htime, if_pos hinstret]
      exact iff_of_true rfl (.inr (.inl hinstret))
    · by_cases hcycle : csr = CSR_CYCLE
      · rw [if_neg htime, if_neg hinstret, if_pos hcycle]
        exact iff_of_true rfl (.inr (.inr hcycle))
      · rw [if_neg htime, if_neg hinstret, if_neg hcycle]
        simp [htime, hinstret, hcycle]

/-- The context after an instruction that put a value into a register. -/
def emulated (s : TrapState) (val : BitVec 64) : TrapState :=
  let ctx := setRegval (rdOf s.ctx.mtval) val s.ctx
  { s with ctx := ctx.setMepc (ctx.mepc + 4) }

/-- From U- or S-mode an instruction with the opcode SYSTEM is left to S-mode, emulated,
or stops the hart. -/
theorem exceptionsIllSystem_spec (hmode : prevMode s.ctx ≠ PRV_M) :
    (NamesFpCsr s.ctx.mtval → exceptionsIllSystem env s = some (false, s)) ∧
      (¬NamesFpCsr s.ctx.mtval → ReadsCounter s.ctx.mtval →
        ∃ val, csrEmulateRead env (csrOf s.ctx.mtval) = some val ∧
          exceptionsIllSystem env s = some (true, emulated s val)) ∧
      (¬NamesFpCsr s.ctx.mtval → ¬ReadsCounter s.ctx.mtval → exceptionsIllSystem env s = none) := by
  obtain ⟨hcsr, hrs1, hrd, hfunct3⟩ := fields_eq s.ctx.mtval
  rw [exceptionsIllSystem]
  simp only [hcsr, hrs1, hrd, hfunct3, if_neg hmode]
  rw [NamesFpCsr]
  refine ⟨fun hfp => if_pos hfp, fun hfp hreads => ?_, fun hfp hreads => ?_⟩
  · obtain ⟨val, hval⟩ := Option.isSome_iff_exists.mp
      ((@csrEmulateRead_isSome_iff env _).mpr hreads.counter)
    refine ⟨val, hval, ?_⟩
    obtain ⟨new, hnew⟩ := (csrOperation_quiet s.ctx.mtval val
      (getRegval (BitVec.ofNat 32 (rs1Of s.ctx.mtval)).toNat s.ctx)).mpr
        ⟨hreads.setsOrClears, hreads.noBits⟩
    rw [if_neg hfp]
    simp only [hval, hnew]
    rfl
  · rw [if_neg hfp]
    cases hval : csrEmulateRead env (csrOf s.ctx.mtval) with
    | none => rfl
    | some val =>
      have hcounter := (csrEmulateRead_isSome_iff _).mp (Option.isSome_of_eq_some hval)
      have hloud : ¬∃ new, csrOperation (funct3Of s.ctx.mtval) val
          (getRegval (BitVec.ofNat 32 (rs1Of s.ctx.mtval)).toNat s.ctx)
          (BitVec.ofNat 32 (rs1Of s.ctx.mtval)) = some (new, 0) := by
        rw [csrOperation_quiet]
        exact fun h => hreads ⟨hcounter, h.1, h.2⟩
      cases hop : csrOperation (funct3Of s.ctx.mtval) val
          (getRegval (BitVec.ofNat 32 (rs1Of s.ctx.mtval)).toNat s.ctx)
          (BitVec.ofNat 32 (rs1Of s.ctx.mtval)) with
      | none => simp only [hop]
      | some r =>
        obtain ⟨new, write⟩ := r
        have hwrite : write ≠ 0 := by
          rintro rfl
          exact hloud ⟨new, hop⟩
        have hneg : csrEmulateWrite (csrOf s.ctx.mtval) new < 0 := by
          rw [csrEmulateWrite]
          decide
        simp only [hop]
        exact if_pos ⟨hwrite, hneg⟩

end System

section Context
variable (ctx : ExcContext) (val : BitVec 64)

theorem set_word (i j : Nat) : (ctx.set i val).word j = if j = i then val else ctx.word j := by
  simp only [ExcContext.set, Function.update_apply]

theorem set_word_self (i : Nat) : (ctx.set i val).word i = val := by
  rw [set_word, if_pos rfl]

theorem set_word_ne {i j : Nat} (h : j ≠ i) : (ctx.set i val).word j = ctx.word j := by
  rw [set_word, if_neg h]

/-- The registers come before the ones of the machine. -/
theorem getRegval_set {r i : Nat} (hr : r < 32) (hi : 31 ≤ i) :
    getRegval r (ctx.set i val) = getRegval r ctx := by
  rw [getRegval, getRegval]
  split
  · rfl
  · exact set_word_ne ctx val (by omega)

theorem getRegval_setRegval {r rd : Nat} :
    getRegval r (setRegval rd val ctx) = if r = rd ∧ r ≠ 0 then val else getRegval r ctx := by
  rw [setRegval]
  by_cases hrd : rd = 0
  · rw [if_neg (not_not_intro hrd), if_neg]
    exact fun h => h.2 (h.1.trans hrd)
  · rw [if_pos hrd, getRegval, getRegval]
    by_cases hr : r = 0
    · rw [if_pos hr, if_pos hr, if_neg fun h => h.2 hr]
    · rw [if_neg hr, if_neg hr]
      rw [set_word]
      by_cases heq : r = rd
      · rw [if_pos (by omega), if_pos ⟨heq, hr⟩]
      · rw [if_neg (by omega), if_neg fun h => heq h.1]

/-- A register is in front of the words of the machine. -/
theorem setRegval_word {rd i : Nat} (hrd : rd < 32) (hi : 31 ≤ i) :
    (setRegval rd val ctx).word i = ctx.word i := by
  rw [setRegval]
  split
  · exact set_word_ne ctx val (by omega)
  · rfl

end Context

/-- The machine's words that tell about the trap, and S-mode's vector, are as they were. -/
structure SameTrap (s s' : TrapState) : Prop where
  mcause : s'.ctx.mcause = s.ctx.mcause
  mtval : s'.ctx.mtval = s.ctx.mtval
  stvec : s'.stvec = s.stvec

/-- The instruction was carried out: its register has the value that was read, and the
program goes on behind it. -/
structure Emulated (env : Surroundings) (s s' : TrapState) : Prop where
  value : ∃ val, csrEmulateRead env (csrOf s.ctx.mtval) = some val ∧ ∀ r, r < 32 →
    getRegval r s'.ctx = if r = rdOf s.ctx.mtval ∧ r ≠ 0 then val else getRegval r s.ctx
  mepc : s'.ctx.mepc = s.ctx.mepc + 4
  mstatus : s'.ctx.mstatus = s.ctx.mstatus
  smode : s'.sepc = s.sepc ∧ s'.scause = s.scause ∧ s'.stval = s.stval
  same : SameTrap s s'

/-- The instruction at an address, of four bytes when its lowest two bits are set. -/
def insnAt (env : Surroundings) (pc : BitVec 64) : BitVec 64 :=
  if (env.lhu pc).extractLsb' 0 2 = 3#2 then (env.lhu (pc + 2) ++ env.lhu pc).setWidth 64
  else (env.lhu pc).setWidth 64

/-- The mode the trap came from. -/
def mppOf (ctx : ExcContext) : BitVec 2 := ctx.mstatus.extractLsb' 11 2

/-- The trap was made a trap into S-mode. -/
structure Redirected (env : Surroundings) (s s' : TrapState) : Prop where
  sepc : s'.sepc = s.ctx.mepc
  scause : s'.scause = s.ctx.mcause
  stval : s'.stval = if s.ctx.mtval = 0 then insnAt env s.ctx.mepc else s.ctx.mtval
  pc : s'.ctx.mepc = s.stvec
  spp : s'.ctx.mstatus.getLsbD 8 = decide (mppOf s.ctx = 1#2)
  spie : s'.ctx.mstatus.getLsbD 5 = s.ctx.mstatus.getLsbD 1
  sie : s'.ctx.mstatus.getLsbD 1 = false
  mpp : mppOf s'.ctx = 1#2
  mstatus : ∀ i, i ∉ [1, 5, 8, 11, 12] → s'.ctx.mstatus.getLsbD i = s.ctx.mstatus.getLsbD i
  registers : ∀ r, r < 32 → getRegval r s'.ctx = getRegval r s.ctx
  same : SameTrap s s'

section Effects
variable {env : Surroundings} {s : TrapState}

theorem emulated_spec {val : BitVec 64}
    (hval : csrEmulateRead env (csrOf s.ctx.mtval) = some val) : Emulated env s (emulated s val) := by
  have hrd : rdOf s.ctx.mtval < 32 := (s.ctx.mtval.extractLsb' 7 5).isLt
  have hword (i : Nat) (hi : 31 ≤ i) (hmepc : i ≠ 32) :
      (emulated s val).ctx.word i = s.ctx.word i := by
    rw [emulated, ExcContext.setMepc, set_word_ne _ _ hmepc, setRegval_word _ _ hrd hi]
  refine ⟨⟨val, hval, fun r hr => ?_⟩, ?_, hword 31 (by decide) (by decide), ⟨rfl, rfl, rfl⟩,
    ⟨hword 33 (by decide) (by decide), hword 34 (by decide) (by decide), rfl⟩⟩
  · rw [emulated, ExcContext.setMepc, getRegval_set _ _ hr (by decide), getRegval_setRegval]
  · rw [emulated, ExcContext.setMepc, ExcContext.mepc, set_word_self, ExcContext.mepc,
      setRegval_word _ _ hrd (by decide)]
    rfl

section Bits

theorem mstatus_bits : MSTATUS_SIE = BitVec.twoPow 64 1 ∧ MSTATUS_SPIE = BitVec.twoPow 64 5 ∧
    MSTATUS_SPP = BitVec.twoPow 64 8 ∧
    MSTATUS_MPP = BitVec.twoPow 64 11 ||| BitVec.twoPow 64 12 ∧
    PRV_S <<< MSTATUS_MPP_SHIFT = BitVec.twoPow 64 11 := by decide

theorem and_sie_ne_zero_iff (mstatus : BitVec 64) :
    mstatus &&& MSTATUS_SIE ≠ 0 ↔ mstatus.getLsbD 1 = true := by
  rw [mstatus_bits.1, BitVec.and_twoPow]
  cases mstatus.getLsbD 1 <;> decide

/-- A bit that is added to a word when a condition holds. -/
theorem getLsbD_ite_or (c : Prop) [Decidable c] (x m : BitVec 64) (i : Nat) :
    (if c then x ||| m else x).getLsbD i = (x.getLsbD i || (decide c && m.getLsbD i)) := by
  split
  · next hc => rw [BitVec.getLsbD_or, decide_eq_true hc, Bool.true_and]
  · next hc => rw [decide_eq_false hc, Bool.false_and, Bool.or_false]

/-- Each bit of `mstatus` after a redirected trap. -/
theorem redirect_getLsbD (insn : BitVec 64) (s : TrapState) {i : Nat} (hi : i < 64) :
    (exceptionsRedirect insn s).ctx.mstatus.getLsbD i =
      if i = 1 then false
      else if i = 5 then s.ctx.mstatus.getLsbD 1
      else if i = 8 then decide (prevMode s.ctx = PRV_S)
      else if i = 11 then true
      else if i = 12 then false
      else s.ctx.mstatus.getLsbD i := by
  obtain ⟨hsie, hspie, hspp, hmpp, hprv⟩ := mstatus_bits
  have hset : decide (s.ctx.mstatus &&& MSTATUS_SIE ≠ 0) = s.ctx.mstatus.getLsbD 1 := by
    rw [Bool.eq_iff_iff, decide_eq_true_iff, and_sie_ne_zero_iff]
  rw [exceptionsRedirect, ExcContext.mstatus, ExcContext.setMstatus, set_word_self,
    BitVec.getLsbD_and, getLsbD_ite_or, getLsbD_ite_or, hset]
  simp only [BitVec.getLsbD_and, BitVec.getLsbD_or, BitVec.getLsbD_not, decide_eq_true hi, hsie,
    hspie, hspp, hmpp, hprv, BitVec.getLsbD_twoPow, Bool.true_and]
  by_cases h1 : i = 1
  · simp [h1]
  · by_cases h5 : i = 5
    · simp [h5]
    · by_cases h8 : i = 8
      · simp [h8]
      · by_cases h11 : i = 11
        · simp [h11]
        · by_cases h12 : i = 12
          · simp [h12]
          · simp [Ne.symm h1, Ne.symm h5, Ne.symm h8, Ne.symm h11, Ne.symm h12, h1, h5, h8, h11, h12]

end Bits

theorem prevMode_eq (ctx : ExcContext) : prevMode ctx = (mppOf ctx).setWidth 64 := by
  have hmask : MSTATUS_MPP >>> MSTATUS_MPP_SHIFT = BitVec.ofNat 64 (2 ^ 2 - 1) := by decide
  rw [prevMode, BitVec.ushiftRight_and_distrib, hmask]
  exact @shift_mask ctx.mstatus 11 2 (by decide)

theorem prevMode_eq_prvS_iff (ctx : ExcContext) : prevMode ctx = PRV_S ↔ mppOf ctx = 1#2 := by
  have hall : ∀ x : BitVec 2, x.setWidth 64 = PRV_S ↔ x = 1#2 := by decide
  rw [prevMode_eq]
  exact hall _

theorem prevMode_ne_prvM (h : mppOf s.ctx = 0#2 ∨ mppOf s.ctx = 1#2) : prevMode s.ctx ≠ PRV_M := by
  rw [prevMode_eq]
  obtain hu | hs := h
  · rw [hu]
    decide
  · rw [hs]
    decide

/-- Two half-words put together. -/
theorem append_halves (hi lo : BitVec 16) :
    (hi.setWidth 64 <<< 16) ||| lo.setWidth 64 = (hi ++ lo).setWidth 64 := by
  refine BitVec.eq_of_getLsbD_eq fun i hi64 => ?_
  rw [BitVec.getLsbD_or, BitVec.getLsbD_shiftLeft, BitVec.getLsbD_setWidth, BitVec.getLsbD_setWidth,
    BitVec.getLsbD_setWidth, BitVec.getLsbD_append]
  by_cases hlow : i < 16
  · simp [hlow, hi64]
  · have hzero : lo.getLsbD i = false := BitVec.getLsbD_of_ge _ _ (Nat.not_lt.mp hlow)
    have hback : i - 16 < 64 := by omega
    simp [hlow, hi64, hzero, hback]

theorem loadInsn_eq (pc : BitVec 64) : loadInsn env pc = insnAt env pc := by
  have hlow : (env.lhu pc).setWidth 64 &&& 3 =
      ((env.lhu pc).extractLsb' 0 2).setWidth 64 := by
    have hmask := @shift_mask ((env.lhu pc).setWidth 64) 0 2 (by decide)
    rw [BitVec.ushiftRight_zero] at hmask
    rw [← BitVec.extractLsb'_setWidth_of_le (by decide : 0 + 2 ≤ 64)]
    exact hmask
  have hall : ∀ x : BitVec 2, x.setWidth 64 = (3 : BitVec 64) ↔ x = 3#2 := by decide
  have hlong : (env.lhu pc).setWidth 64 &&& 3 = (3 : BitVec 64) ↔
      (env.lhu pc).extractLsb' 0 2 = 3#2 := by
    rw [hlow]
    exact hall _
  rw [loadInsn, insnAt]
  by_cases hthree : (env.lhu pc).extractLsb' 0 2 = 3#2
  · rw [if_pos hthree, if_pos (hlong.mpr hthree), append_halves]
  · rw [if_neg hthree, if_neg (mt hlong.mp hthree)]

theorem redirected_spec (s : TrapState) :
    Redirected env s (exceptionsRedirect
      (if s.ctx.mtval = 0 then loadInsn env s.ctx.mepc else s.ctx.mtval) s) := by
  have hword (i : Nat) (h31 : i ≠ 31) (h32 : i ≠ 32) (insn : BitVec 64) :
      (exceptionsRedirect insn s).ctx.word i = s.ctx.word i := by
    rw [exceptionsRedirect, ExcContext.setMstatus, set_word_ne _ _ h31, ExcContext.setMepc,
      set_word_ne _ _ h32]
  refine ⟨rfl, rfl, ?_, ?_, ?_, ?_, ?_, ?_, fun i hi => ?_, fun r hr => ?_,
    ⟨hword 33 (by decide) (by decide) _, hword 34 (by decide) (by decide) _, rfl⟩⟩
  · rw [loadInsn_eq]
    rfl
  · rw [exceptionsRedirect, ExcContext.mepc, ExcContext.setMstatus, set_word_ne _ _ (by decide),
      ExcContext.setMepc, set_word_self]
  · rw [redirect_getLsbD _ _ (by decide)]
    simp only [prevMode_eq_prvS_iff]
    rfl
  · rw [redirect_getLsbD _ _ (by decide)]
    rfl
  · rw [redirect_getLsbD _ _ (by decide)]
    rfl
  · refine BitVec.eq_of_getLsbD_eq fun i hi => ?_
    rw [mppOf, BitVec.getLsbD_extractLsb', redirect_getLsbD _ _ (by omega)]
    interval_cases i <;> rfl
  · simp only [List.mem_cons, List.not_mem_nil, or_false, not_or] at hi
    by_cases hlt : i < 64
    · rw [redirect_getLsbD _ _ hlt, if_neg hi.1, if_neg hi.2.1, if_neg hi.2.2.1,
        if_neg hi.2.2.2.1, if_neg hi.2.2.2.2]
    · rw [BitVec.getLsbD_of_ge _ _ (Nat.not_lt.mp hlt), BitVec.getLsbD_of_ge _ _ (Nat.not_lt.mp hlt)]
  · rw [exceptionsRedirect, ExcContext.setMstatus, getRegval_set _ _ hr (by decide),
      ExcContext.setMepc, getRegval_set _ _ hr (by decide)]

/-- What a trap from U- or S-mode comes to. -/
theorem exceptionsDispatch_spec (hmode : mppOf s.ctx = 0#2 ∨ mppOf s.ctx = 1#2) :
    (¬IsSystem s.ctx.mtval ∨ NamesFpCsr s.ctx.mtval →
        ∃ s', exceptionsDispatch env MCAUSE_ILLEGAL s = some s' ∧ Redirected env s s') ∧
      (IsSystem s.ctx.mtval → ¬NamesFpCsr s.ctx.mtval → ReadsCounter s.ctx.mtval →
        ∃ s', exceptionsDispatch env MCAUSE_ILLEGAL s = some s' ∧ Emulated env s s') ∧
      (IsSystem s.ctx.mtval → ¬NamesFpCsr s.ctx.mtval → ¬ReadsCounter s.ctx.mtval →
        exceptionsDispatch env MCAUSE_ILLEGAL s = none) := by
  have hnotM := prevMode_ne_prvM hmode
  obtain ⟨hfp, hreads, hhalts⟩ := @exceptionsIllSystem_spec env s hnotM
  have hdispatch : exceptionsDispatch env MCAUSE_ILLEGAL s = exceptionsIllegalHandler env s :=
    if_pos rfl
  have hredirect (htry : tryIllSystem env s = some (false, s)) :
      exceptionsIllegalHandler env s = some (exceptionsRedirect
        (if s.ctx.mtval = 0 then loadInsn env s.ctx.mepc else s.ctx.mtval) s) := by
    rw [exceptionsIllegalHandler, htry]
    exact if_neg hnotM
  have hsystem (hsys : IsSystem s.ctx.mtval) : tryIllSystem env s = exceptionsIllSystem env s :=
    if_pos ((isSystem_iff _).mpr hsys)
  rw [hdispatch]
  refine ⟨fun hpass => ?_, fun hsys hnotFp hread => ?_, fun hsys hnotFp hread => ?_⟩
  · refine ⟨_, hredirect ?_, redirected_spec s⟩
    by_cases hsys : IsSystem s.ctx.mtval
    · rw [hsystem hsys, hfp (hpass.resolve_left (not_not_intro hsys))]
    · exact if_neg (mt (isSystem_iff _).mp hsys)
  · obtain ⟨val, hval, hrun⟩ := hreads hnotFp hread
    refine ⟨emulated s val, ?_, emulated_spec hval⟩
    rw [exceptionsIllegalHandler, hsystem hsys, hrun]
  · rw [exceptionsIllegalHandler, hsystem hsys, hhalts hnotFp hread]

end Effects

section Claims
variable (env : Surroundings) (s : TrapState)

/-- A trap from U-mode with all registers zero. -/
def userTrap (insn : BitVec 64) : TrapState where
  ctx := ⟨fun i => if i = 33 then 2 else if i = 34 then insn else 0⟩
  sepc := 0
  scause := 0
  stval := 0
  stvec := 0x80000000

def counters : Surroundings := ⟨5, 7, 9, fun _ => 0⟩

/-- A trap from U- or S-mode that returns has emulated an instruction with the opcode
SYSTEM or was redirected, and has changed nothing else. -/
theorem exceptionsDispatch_effect (hmode : mppOf s.ctx = 0#2 ∨ mppOf s.ctx = 1#2)
    (s' : TrapState) (hs' : exceptionsDispatch env MCAUSE_ILLEGAL s = some s') :
    (IsSystem s.ctx.mtval ∧ ¬NamesFpCsr s.ctx.mtval ∧ Emulated env s s') ∨
      ((¬IsSystem s.ctx.mtval ∨ NamesFpCsr s.ctx.mtval) ∧ Redirected env s s') := by
  obtain ⟨hredirected, hemulated, hhalts⟩ := @exceptionsDispatch_spec env s hmode
  by_cases hpass : ¬IsSystem s.ctx.mtval ∨ NamesFpCsr s.ctx.mtval
  · obtain ⟨s₁, hs₁, heffect⟩ := hredirected hpass
    rw [hs'] at hs₁
    cases hs₁
    exact .inr ⟨hpass, heffect⟩
  · obtain ⟨hsys, hfp⟩ := not_or.mp hpass
    by_cases hread : ReadsCounter s.ctx.mtval
    · obtain ⟨s₁, hs₁, heffect⟩ := hemulated (not_not.mp hsys) hfp hread
      rw [hs'] at hs₁
      cases hs₁
      exact .inl ⟨not_not.mp hsys, hfp, heffect⟩
    · rw [hhalts (not_not.mp hsys) hfp hread] at hs'
      cases hs'

/-- `csrrs a0, time, x0`, and an instruction of two bytes that is not in `mtval`. -/
theorem exceptionsDispatch_effect_time :
    ((IsSystem 0xc0102573 ∧ ¬NamesFpCsr 0xc0102573 ∧
        Emulated counters (userTrap 0xc0102573) (emulated (userTrap 0xc0102573) 5)) ∨
      ((¬IsSystem 0xc0102573 ∨ NamesFpCsr 0xc0102573) ∧
        Redirected counters (userTrap 0xc0102573) (emulated (userTrap 0xc0102573) 5))) ∧
    ((IsSystem 0 ∧ ¬NamesFpCsr 0 ∧
        Emulated counters (userTrap 0) (exceptionsRedirect 0 (userTrap 0))) ∨
      ((¬IsSystem 0 ∨ NamesFpCsr 0) ∧
        Redirected counters (userTrap 0) (exceptionsRedirect 0 (userTrap 0)))) :=
  ⟨exceptionsDispatch_effect counters (userTrap 0xc0102573) (.inl (by decide)) _ rfl,
    exceptionsDispatch_effect counters (userTrap 0) (.inl (by decide)) _ rfl⟩

end Claims

end Plo.Sbi
