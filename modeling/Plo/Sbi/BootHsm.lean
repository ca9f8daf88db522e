import Plo.Sbi.BootRuns
import Mathlib.Algebra.BigOperators.Group.Finset.Basic
import Mathlib.Algebra.Order.BigOperators.Group.Finset

/-!
The boot as a whole. Whatever the order of the steps, one hart boots cold, and when a
hart leaves `hsm_hartWait` the mask and the count are those of all harts and the start
of harts goes on as in `Hsm` from its first state. From every state the boot can be
completed.
-/
namespace Plo.Sbi

section Congruence
variable {n : Nat} {s t : Nat → HsmHart}

/-- The harts of the range are the same. -/
def Agree (n : Nat) (s t : Nat → HsmHart) : Prop := ∀ k < n, s k = t k

theorem Agree.change (h : Agree n s t) (m : Nat) (f : HsmHart → HsmHart) :
    Agree n (change s m f) (change t m f) := by
  intro k hk
  by_cases hkm : k = m
  · rw [hkm, change_self, change_self, ← hkm, h k hk]
  · rw [change_of_ne s f hkm, change_of_ne t f hkm, h k hk]

/-- A step of a hart of the range depends on the harts of the range only. -/
theorem Agree.hsmStep (h : Agree n s t) {i : HsmStep} (hme : i.me < n) :
    Agree n (hsmStep n s i) (hsmStep n t i) := by
  cases i with
  | call me hartid startAddr opaque_ =>
      simp only [Sbi.hsmStep, hartStart, h me hme]
      split
      · split
        · exact h.change _ _
        · next hlt =>
          rw [h hartid (by omega)]
          split
          · exact h.change _ _
          · exact h.change _ _
          · exact (h.change _ _).change _ _
      · exact h
  | next me =>
      simp only [Sbi.hsmStep, hsmNext, h me hme]
      split
      · split
        · exact h.change _ _
        · exact h
      · split
        · exact h.change _ _
        · exact h.change _ _
      · exact h.change _ _
      · exact (h.change _ _).change _ _
      · exact (h.change _ _).change _ _
      · exact (h.change _ _).change _ _
      · exact h
  | readArg1 me =>
      simp only [Sbi.hsmStep, h me hme]
      split
      · exact h.change _ _
      · exact h
  | readAddr me =>
      simp only [Sbi.hsmStep, h me hme]
      split
      · exact h.change _ _
      · exact h

/-- A hart that waits and is not started takes no step. -/
theorem hsmStep_parked {i : HsmStep} (hpc : (s i.me).pc = .wait)
    (hstate : (s i.me).state = .stopped) : hsmStep n s i = s := by
  cases i with
  | call me hartid startAddr opaque_ =>
      have hme : (s me).pc = .wait := hpc
      simp [hsmStep, hme]
  | next me =>
      have hme : (s me).pc = .wait := hpc
      have hstopped : (s me).state = .stopped := hstate
      simp [hsmStep, hsmNext, hme, hstopped]
  | readArg1 me =>
      have hme : (s me).pc = .wait := hpc
      simp [hsmStep, hme]
  | readAddr me =>
      have hme : (s me).pc = .wait := hpc
      simp [hsmStep, hme]

end Congruence

section Boot
variable {P : Platform} {b me : Nat} {s : Boot}

theorem Elected.count_toNat (h : Elected P b s) (h10 : 10 ≤ (s.pc b).rank) :
    s.hartCount.toNat = P.hartCount := by
  have hsize : P.hartCount ≤ 8 := P.hartCount_le
  rw [h.hartCount h10, BitVec.toNat_ofNat]
  omega

/-- A step of `Hsm` by a hart that is past `hsm_init`, or in its wait there. -/
theorem elected_hsm (h : Elected P b s) {i : HsmStep} (hme : i.me < P.hartCount)
    (hpc : s.pc i.me = .hsm) :
    Elected P b { s with hsm := hsmStep s.hartCount.toNat s.hsm i } := by
  by_cases hb : s.pc b = .hsm
  · have hpassed := h.passed (by rw [hb]; decide)
    have hall : ∀ k < P.hartCount, s.pc k = .hsm := fun k hk =>
      if hkb : k = b then hkb ▸ hb else h.hsm_of_counted hk hkb (hpassed k hk)
    have hrunning : ∃ t,
        Reachable (hsmStep P.hartCount) (fun _ _ => True) (hsmInit b P.payload P.fdt) t ∧
          Agree P.hartCount (hsmStep s.hartCount.toNat s.hsm i) t := by
      obtain ⟨t, ht, hagree⟩ := h.running hb
      rw [h.count_toNat (by rw [hb]; decide)]
      exact ⟨_, .step ht trivial, Agree.hsmStep hagree hme⟩
    exact { h with
      prepared := fun k hk => by
        rw [hall k hk]
        trivial
      waiting := fun h15 => by
        rw [hb] at h15
        exact absurd h15 (by decide)
      running := fun _ => hrunning }
  · have hne : i.me ≠ b := fun heq => hb (heq ▸ hpc)
    have h15 : (s.pc b).rank < 15 := by
      revert hb
      cases s.pc b <;> simp [BootPc.rank]
    have hpark := h.waiting h15 i.me hme hne hpc
    rw [hsmStep_parked (by rw [hpark]; rfl) (by rw [hpark]; rfl)]
    exact h

/-- No hart has taken the lock. -/
structure Fresh (P : Platform) (s : Boot) : Prop where
  reset : ∀ h < P.hartCount, s.pc h = .reset
  lock : s.hartLock = 0
  ready : s.bootReady = 0
  idle : ∀ h, Idle (s.hsm h)

/-- The hart that comes first is elected. -/
theorem elected_first (h : Fresh P s) (hme : me < P.hartCount) : Elected P me (bootNext P s me) := by
  have hlock : ¬s.hartLock ≠ 0 := fun hne => hne h.lock
  rw [bootNext, h.reset me hme]
  simp only [if_neg hlock]
  have hpc : ∀ {s₁ : Boot}, (s₁.goto me (.clearBss P.bss)).pc me = .clearBss P.bss :=
    Function.update_self ..
  have hother : ∀ k < P.hartCount, k ≠ me →
      ({ s with hartLock := s.hartLock + 1 }.goto me (.clearBss P.bss)).pc k = .reset :=
    fun k hk hne => (Function.update_of_ne hne ..).trans (h.reset k hk)
  constructor
  case lt => exact hme
  case lock =>
    have hnone : s.past P 1 = 0 := tally_eq_zero.mpr fun k hk => by
      rw [h.reset k hk]
      decide
    have hone : ({ s with hartLock := s.hartLock + 1 }.goto me (.clearBss P.bss)).past P 1 = 1 := by
      have hsucc : _ = s.past P 1 + 1 := tally_succ
        (q := fun k => 1 ≤
          (({ s with hartLock := s.hartLock + 1 }.goto me (.clearBss P.bss)).pc k).rank)
        hme (by rw [h.reset me hme]; decide) (by rw [hpc]; exact le_rfl)
        fun k hk => by simp only [Boot.goto, Function.update_of_ne hk]
      rw [hnone] at hsucc
      exact hsucc
    rw [hone]
    simp only [Boot.goto, h.lock]
    rfl
  case cold => rw [hpc]; rfl
  case warm =>
    intro k hk hne
    rw [hother k hk hne]
    rfl
  case behind =>
    intro k hk hne
    rw [hother k hk hne]
    exact fun h4 => absurd h4 (by decide)
  case ready =>
    rw [hpc]
    exact iff_of_true h.ready (by rw [BootPc.rank_clearBss]; decide)
  case mark_cleared =>
    intro left hleft
    rw [hpc] at hleft
    cases hleft
    exact Or.inl (P.bss_all _)
  case count_cleared =>
    intro left hleft
    rw [hpc] at hleft
    cases hleft
    exact Or.inl (P.bss_all _)
  case prepared =>
    intro k hk
    by_cases hne : k = me
    · rw [hne, hpc]
      exact h.idle me
    · rw [hother k hk hne]
      exact h.idle k
  case waiting =>
    intro _ k hk hne hhsm
    rw [hother k hk hne] at hhsm
    cases hhsm
  all_goals
    rw [hpc]
    first
      | exact fun hle => absurd hle (by rw [BootPc.rank_clearBss]; decide)
      | exact fun heq => by cases heq

/-- Every state of the boot: nobody has come, or one hart is the elected one. -/
theorem boot_invariant (P : Platform) (g : Garbage) {s : Boot}
    (h : Reachable (bootStep P) (fun _ i => i.me < P.hartCount) (bootInit g) s) :
    Fresh P s ∨ ∃ b, Elected P b s := by
  refine h.invariant (I := fun s => Fresh P s ∨ ∃ b, Elected P b s) ?_ fun s i hs hme => ?_
  · exact Or.inl ⟨fun _ _ => rfl, rfl, rfl, fun _ => ⟨rfl, rfl, rfl, rfl, rfl⟩⟩
  · cases i with
    | boot me =>
        rcases hs with hfresh | ⟨b, hb⟩
        · exact Or.inr ⟨me, elected_first hfresh hme⟩
        · by_cases hne : me = b
          · exact Or.inr ⟨b, by rw [bootStep, hne]; exact elected_cold hb⟩
          · exact Or.inr ⟨b, elected_warm hb hme hne⟩
    | hsm i =>
        simp only [bootStep]
        split
        · next hpc =>
          rcases hs with hfresh | ⟨b, hb⟩
          · rw [hfresh.reset i.me hme] at hpc
            cases hpc
          · exact Or.inr ⟨b, elected_hsm hb hme hpc⟩
        · exact hs

theorem Elected.all_hsm (h : Elected P b s) (hb : s.pc b = .hsm) :
    ∀ k < P.hartCount, s.pc k = .hsm := fun k hk =>
  if hkb : k = b then hkb ▸ hb
  else h.hsm_of_counted hk hkb (h.passed (by rw [hb]; decide) k hk)

/-- In every run one hart at most boots cold; and once any hart has left `hsm_hartWait`,
the mask has all harts and the harts are as `Hsm` has them after some steps. -/
theorem boot_refines_hsm (P : Platform) (g : Garbage) {s : Boot}
    (h : Reachable (bootStep P) (fun _ i => i.me < P.hartCount) (bootInit g) s) :
    (∀ j < P.hartCount, ∀ k < P.hartCount,
        (s.pc j).warm = false → (s.pc k).warm = false → j = k) ∧
      ∀ me < P.hartCount, s.pc me = .hsm → (s.hsm me).pc ≠ .wait →
        ∃ b < P.hartCount, s.bootHartId = BitVec.ofNat 32 b ∧
          (∀ k, s.sbi_hartMask.getLsbD k = decide (k < P.hartCount)) ∧
          (∀ k < P.hartCount, s.pc k = .hsm) ∧
          ∃ t, Reachable (hsmStep P.hartCount) (fun _ _ => True) (hsmInit b P.payload P.fdt) t ∧
            ∀ k < P.hartCount, s.hsm k = t k := by
  rcases boot_invariant P g h with hfresh | ⟨b, hb⟩
  · refine ⟨fun j hj k hk hwarm => ?_, fun me hme hpc => ?_⟩
    · rw [hfresh.reset j hj] at hwarm
      cases hwarm
    · rw [hfresh.reset me hme] at hpc
      cases hpc
  · have hone : ∀ j < P.hartCount, (s.pc j).warm = false → j = b := by
      intro j hj hwarm
      by_contra hne
      rw [hb.warm j hj hne] at hwarm
      cases hwarm
    refine ⟨fun j hj k hk hwj hwk => (hone j hj hwj).trans (hone k hk hwk).symm, ?_⟩
    intro me hme hpc hleft
    have hstarted : s.pc b = .hsm := by
      by_contra hnot
      have hne : me ≠ b := fun heq => hnot (heq ▸ hpc)
      have h15 : (s.pc b).rank < 15 := by
        revert hnot
        cases s.pc b <;> simp [BootPc.rank]
      rw [hb.waiting h15 me hme hne hpc] at hleft
      exact hleft rfl
    have hall := hb.all_hsm hstarted
    refine ⟨b, hb.lt, hb.id (by rw [hstarted]; decide), fun k => ?_, hall, hb.running hstarted⟩
    rw [hb.marked (by rw [hstarted]; decide) k]
    refine decide_eq_decide.mpr ⟨fun hk => hk.1, fun hk => ⟨hk, ?_⟩⟩
    rw [hall k hk]
    decide

/-- Two harts. -/
def twoHarts : Platform where
  hartCount := 2
  payload := 0x80040000
  fdt := 0x82000000
  bss := [.hartsStarted, .sbi_hartMask, .bootHartId, .hartCount] ++
    (List.finRange MAX_HART_COUNT).map .perHartData
  hartCount_le := by decide
  bss_all := fun v => by cases v <;> simp

def garbage : Garbage := ⟨7, 0x5a, 3, 9, fun _ => .startPending, fun h => h, fun _ => 1⟩

/-- The second hart comes first, boots cold and jumps; the first one comes in between. -/
def twoHartsRun : List BootStep :=
  .boot 1 :: .boot 0 :: List.replicate 25 (.boot 1) ++ List.replicate 12 (.boot 0) ++
    List.replicate 2 (.boot 1) ++ [.hsm (.next 1)]

theorem boot_refines_hsm_two :
    ∃ b < 2, (twoHartsRun.foldl (bootStep twoHarts) (bootInit garbage)).bootHartId =
        BitVec.ofNat 32 b ∧
      ∀ k, (twoHartsRun.foldl (bootStep twoHarts) (bootInit garbage)).sbi_hartMask.getLsbD k =
        decide (k < 2) := by
  have hrun : Reachable (bootStep twoHarts) (fun _ i => i.me < twoHarts.hartCount)
      (bootInit garbage) (twoHartsRun.foldl (bootStep twoHarts) (bootInit garbage)) :=
    .foldl .init _ (fun i hi _ => by revert i; decide)
  obtain ⟨b, hb, hid, hmask, -⟩ :=
    (boot_refines_hsm twoHarts garbage hrun).2 1 (by decide) (by rfl) (by decide)
  exact ⟨b, hb, hid, hmask⟩

/-! Completion. -/

/-- How many steps a hart has left. -/
def BootPc.togo (P : Platform) : BootPc → Nat
  | .reset => 15 + P.bss.length
  | .clearBss left => 14 + left.length
  | pc => 15 - pc.rank

theorem bootNext_pc_of_ne {k : Nat} (hk : k ≠ me) : (bootNext P s me).pc k = s.pc k := by
  have hgoto : ∀ {s₁ : Boot} {pc : BootPc}, s₁.pc = s.pc → (s₁.goto me pc).pc k = s.pc k :=
    fun hpc => (Function.update_of_ne hk ..).trans (congrFun hpc k)
  rw [bootNext]
  split
  all_goals first
    | exact hgoto rfl
    | exact hgoto (clear_frame s _).1
    | (split <;> first | rfl | exact hgoto rfl)
    | rfl

/-- A hart goes on unless it waits for `bootReady` or at the barrier. -/
theorem togo_lt (hpc : s.pc me ≠ .hsm) (hwait : s.pc me = .waitBootHart → s.bootReady ≠ 0)
    (hbarrier : s.pc me = .barrier → ¬s.hartsStarted < s.hartCount) :
    ((bootNext P s me).pc me).togo P < (s.pc me).togo P := by
  have hgoto : ∀ {s₁ : Boot} {pc : BootPc}, (s₁.goto me pc).pc me = pc := Function.update_self ..
  rw [bootNext]
  cases h : s.pc me with
  | reset =>
      simp only [hgoto]
      split <;> simp [BootPc.togo, BootPc.rank]
      omega
  | clearBss left => cases left <;> simp [hgoto, BootPc.togo, BootPc.rank]
  | waitBootHart =>
      simp only [if_neg (hwait h), hgoto]
      simp [BootPc.togo, BootPc.rank]
  | barrier =>
      simp only [if_neg (hbarrier h), hgoto]
      simp [BootPc.togo, BootPc.rank]
  | entry =>
      simp only [hgoto]
      split <;> simp [BootPc.togo, BootPc.rank]
  | hsmInit =>
      simp only [hgoto]
      split <;> simp [BootPc.togo, BootPc.rank]
  | hsm => exact absurd h hpc
  | _ => simp [hgoto, BootPc.togo, BootPc.rank]

/-- As long as some hart is not in its wait or started, some hart can go on. -/
theorem Elected.can_advance (h : Elected P b s) (hleft : ∃ k < P.hartCount, s.pc k ≠ .hsm) :
    ∃ me < P.hartCount, ((bootNext P s me).pc me).togo P < (s.pc me).togo P := by
  have hnwait : s.pc b ≠ .waitBootHart := fun heq => by
    have hcold := h.cold
    rw [heq] at hcold
    cases hcold
  by_cases hb : s.pc b = .hsm ∨ s.pc b = .barrier
  · -- The elected hart is at or past the barrier: the others go on, or it does.
    have hready : s.bootReady ≠ 0 := mt h.ready.mp (by rcases hb with hb | hb <;> rw [hb] <;> decide)
    by_cases hwarm : ∃ k < P.hartCount, k ≠ b ∧ s.pc k ≠ .hsm
    · obtain ⟨k, hk, hkb, hpc⟩ := hwarm
      refine ⟨k, hk, togo_lt hpc (fun _ => hready) fun hbar => ?_⟩
      have hw := h.warm k hk hkb
      rw [hbar] at hw
      cases hw
    · have hall : ∀ k < P.hartCount, k ≠ b → s.pc k = .hsm := fun k hk hkb =>
        not_not.mp fun hne => hwarm ⟨k, hk, hkb, hne⟩
      rcases hb with hb | hb
      · obtain ⟨k, hk, hne⟩ := hleft
        refine absurd ?_ hne
        by_cases hkb : k = b
        · exact hkb ▸ hb
        · exact hall k hk hkb
      · refine ⟨b, h.lt, togo_lt (by rw [hb]; exact nofun) (fun heq => absurd heq hnwait) fun _ => ?_⟩
        have hcounted : s.past P 12 = P.hartCount := tally_eq_self.mpr fun k hk => by
          by_cases hkb : k = b
          · rw [hkb, hb]
            decide
          · rw [hall k hk hkb]
            decide
        rw [h.counted (by rw [hb]; decide), h.hartCount (by rw [hb]; decide), hcounted]
        exact BitVec.lt_irrefl _
  · exact ⟨b, h.lt, togo_lt (fun heq => hb (Or.inl heq)) (fun heq => absurd heq hnwait)
      fun heq => absurd (Or.inr heq) hb⟩

/-- The steps left of all harts. -/
def Boot.togo (P : Platform) (s : Boot) : Nat :=
  ∑ h ∈ Finset.range P.hartCount, (s.pc h).togo P

theorem togo_bootNext_lt (hme : me < P.hartCount)
    (h : ((bootNext P s me).pc me).togo P < (s.pc me).togo P) :
    (bootNext P s me).togo P < s.togo P := by
  refine Finset.sum_lt_sum (fun k _ => ?_) ⟨me, Finset.mem_range.mpr hme, h⟩
  by_cases hk : k = me
  · rw [hk]
    exact h.le
  · rw [bootNext_pc_of_ne hk]

/-- The boot cannot get stuck: from every state that is reached the harts can be taken
on until all of them are in `hsm_hartWait` or started. -/
theorem boot_completes (P : Platform) (g : Garbage) {s : Boot}
    (h : Reachable (bootStep P) (fun _ i => i.me < P.hartCount) (bootInit g) s) :
    ∃ steps : List BootStep, (∀ i ∈ steps, i.me < P.hartCount) ∧
      ∀ k < P.hartCount, (steps.foldl (bootStep P) s).pc k = .hsm := by
  generalize htogo : s.togo P = n
  induction n using Nat.strong_induction_on generalizing s with
  | _ n ih =>
      by_cases hleft : ∃ k < P.hartCount, s.pc k ≠ .hsm
      · have hnext : ∃ me < P.hartCount,
            ((bootNext P s me).pc me).togo P < (s.pc me).togo P := by
          rcases boot_invariant P g h with hfresh | ⟨b, hb⟩
          · obtain ⟨k, hk, -⟩ := hleft
            have hpc := hfresh.reset k hk
            exact ⟨k, hk, togo_lt (by rw [hpc]; exact nofun) (by rw [hpc]; exact nofun)
              (by rw [hpc]; exact nofun)⟩
          · exact hb.can_advance hleft
        obtain ⟨me, hme, hlt⟩ := hnext
        have hstep : Reachable (bootStep P) (fun _ i => i.me < P.hartCount) (bootInit g)
            (bootStep P s (.boot me)) := .step h hme
        obtain ⟨steps, hsteps, hdone⟩ :=
          ih _ (htogo ▸ togo_bootNext_lt hme hlt) hstep rfl
        refine ⟨.boot me :: steps, ?_, hdone⟩
        rintro i (_ | ⟨_, hi⟩)
        · exact hme
        · exact hsteps i hi
      · exact ⟨[], nofun, fun k hk => not_not.mp fun hne => hleft ⟨k, hk, hne⟩⟩

theorem boot_completes_two :
    ∃ steps : List BootStep, (∀ i ∈ steps, i.me < 2) ∧
      ∀ k < 2, (steps.foldl (bootStep twoHarts)
        (bootStep twoHarts (bootInit garbage) (.boot 1))).pc k = .hsm :=
  boot_completes twoHarts garbage (.step .init (by decide))

end Boot

end Plo.Sbi
