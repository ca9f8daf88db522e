import Plo.Base.Tally
import Plo.Sbi.Boot

/-!
What the boot keeps, over all interleavings. One hart is elected; every other one is
behind it until `bootReady` is set, so that no mark and no count is lost to the clearing
of `.bss`; and no hart leaves `hsm_hartWait` before all have been counted.
-/
namespace Plo.Sbi

/-- How far a hart has come. -/
def BootPc.rank : BootPc → Nat
  | .reset => 0
  | .clearBss _ => 1
  | .setBootHartId => 2
  | .setBootReady | .waitBootHart => 3
  | .markHart => 4
  | .scratchState => 5
  | .scratchAddr => 6
  | .scratchArg1 => 7
  | .entry => 8
  | .initCold => 9
  | .hsmInit => 10
  | .countCold | .countWarm => 11
  | .setPending => 12
  | .barrier => 13
  | .devices => 14
  | .hsm => 15

theorem BootPc.rank_clearBss (left : List BssVar) : (BootPc.clearBss left).rank = 1 := rfl

/-- The steps of a hart that was not elected. -/
def BootPc.warm : BootPc → Bool
  | .reset | .waitBootHart | .markHart | .scratchState | .scratchAddr | .scratchArg1 | .entry
  | .hsmInit | .countWarm | .hsm => true
  | _ => false

/-- The steps of the elected hart. -/
def BootPc.cold : BootPc → Bool
  | .reset | .waitBootHart | .countWarm => false
  | _ => true

/-- No step of `Hsm` has been taken. -/
def Idle (d : HsmHart) : Prop :=
  d.pc = .wait ∧ d.jumped = none ∧ d.ret = none ∧ d.call = none ∧ d.successes = 0

def parked (P : Platform) (state : HartState) : HsmHart :=
  ⟨state, P.fdt, P.payload, .wait, none, none, none, 0⟩

/-- What a hart has prepared of its data. -/
def Prepared (P : Platform) (d : HsmHart) : BootPc → Prop
  | .scratchAddr => Idle d ∧ d.state = .stopped
  | .scratchArg1 => Idle d ∧ d.state = .stopped ∧ d.nextAddr = P.payload
  | .entry | .initCold | .hsmInit | .countCold | .countWarm | .setPending =>
    d = parked P .stopped
  | .barrier | .devices => d = parked P .startPending
  | .hsm => True
  | _ => Idle d

/-- A count of the harts that have come so far. -/
def Boot.past (P : Platform) (s : Boot) (rank : Nat) : Nat :=
  tally P.hartCount fun h => rank ≤ (s.pc h).rank

/-- What holds while the hart `b` is the elected one. -/
structure Elected (P : Platform) (b : Nat) (s : Boot) : Prop where
  lt : b < P.hartCount
  lock : s.hartLock = BitVec.ofNat 32 (s.past P 1)
  cold : (s.pc b).cold = true
  warm : ∀ h < P.hartCount, h ≠ b → (s.pc h).warm = true
  behind : ∀ h < P.hartCount, h ≠ b → 4 ≤ (s.pc h).rank → 4 ≤ (s.pc b).rank
  ready : s.bootReady = 0 ↔ (s.pc b).rank ≤ 3
  id : 3 ≤ (s.pc b).rank → s.bootHartId = BitVec.ofNat 32 b
  marked : 2 ≤ (s.pc b).rank →
    ∀ h, s.sbi_hartMask.getLsbD h = decide (h < P.hartCount ∧ 5 ≤ (s.pc h).rank)
  mark_cleared : ∀ left, s.pc b = .clearBss left → .sbi_hartMask ∈ left ∨ s.sbi_hartMask = 0
  counted : 2 ≤ (s.pc b).rank → s.hartsStarted = BitVec.ofNat 32 (s.past P 12)
  count_cleared : ∀ left, s.pc b = .clearBss left → .hartsStarted ∈ left ∨ s.hartsStarted = 0
  hartCount : 10 ≤ (s.pc b).rank → s.hartCount = BitVec.ofNat 32 P.hartCount
  prepared : ∀ h < P.hartCount, Prepared P (s.hsm h) (s.pc h)
  passed : 14 ≤ (s.pc b).rank → ∀ h < P.hartCount, 12 ≤ (s.pc h).rank
  waiting : (s.pc b).rank < 15 → ∀ h < P.hartCount, h ≠ b → s.pc h = .hsm →
    s.hsm h = parked P .stopped
  running : s.pc b = .hsm → ∃ t,
    Reachable (hsmStep P.hartCount) (fun _ _ => True) (hsmInit b P.payload P.fdt) t ∧
      ∀ h < P.hartCount, s.hsm h = t h

section Moves
variable {P : Platform} {b me : Nat} {s s' : Boot} {pc : BootPc}

/-- A hart moves on: what it adds to the lock, the mask and the count is told by the
ranks it passes. -/
structure Move (s s' : Boot) (me : Nat) (pc : BootPc) : Prop where
  pc_eq : s'.pc = Function.update s.pc me pc
  le : (s.pc me).rank ≤ pc.rank
  others : ∀ h ≠ me, s'.hsm h = s.hsm h
  lock : s'.hartLock =
    if (s.pc me).rank < 1 ∧ 1 ≤ pc.rank then s.hartLock + 1 else s.hartLock
  mask : s'.sbi_hartMask =
    if (s.pc me).rank < 5 ∧ 5 ≤ pc.rank then s.sbi_hartMask ||| 1#64 <<< me else s.sbi_hartMask
  started : s'.hartsStarted =
    if (s.pc me).rank < 12 ∧ 12 ≤ pc.rank then s.hartsStarted + 1 else s.hartsStarted

theorem Move.pc_me (m : Move s s' me pc) : s'.pc me = pc := by
  rw [m.pc_eq, Function.update_self]

theorem Move.pc_of_ne (m : Move s s' me pc) {h : Nat} (hne : h ≠ me) : s'.pc h = s.pc h := by
  rw [m.pc_eq, Function.update_of_ne hne]

theorem Move.rank_le (m : Move s s' me pc) (h : Nat) : (s.pc h).rank ≤ (s'.pc h).rank := by
  by_cases hh : h = me
  · rw [hh, m.pc_me]
    exact m.le
  · rw [m.pc_of_ne hh]

theorem Move.past (m : Move s s' me pc) (hme : me < P.hartCount) (rank : Nat) :
    s'.past P rank =
      if (s.pc me).rank < rank ∧ rank ≤ pc.rank then s.past P rank + 1 else s.past P rank := by
  have hother : ∀ k ≠ me, rank ≤ (s.pc k).rank ↔ rank ≤ (s'.pc k).rank := fun k hk => by
    rw [m.pc_of_ne hk]
  by_cases hpass : (s.pc me).rank < rank ∧ rank ≤ pc.rank
  · rw [if_pos hpass]
    exact tally_succ hme (by omega) (by rw [m.pc_me]; exact hpass.2) hother
  · rw [if_neg hpass]
    refine tally_congr fun k _ => ?_
    by_cases hk : k = me
    · have hle := m.le
      rw [hk, m.pc_me]
      omega
    · exact (hother k hk).symm

theorem Move.counter (m : Move s s' me pc) (hme : me < P.hartCount) {rank : Nat} {n n' : BitVec 32}
    (h : n = BitVec.ofNat 32 (s.past P rank))
    (hn : n' = if (s.pc me).rank < rank ∧ rank ≤ pc.rank then n + 1 else n) :
    n' = BitVec.ofNat 32 (s'.past P rank) := by
  rw [m.past hme, hn, h]
  split
  · rw [BitVec.ofNat_add]
    rfl
  · rfl

theorem Move.marked (m : Move s s' me pc) (hme : me < P.hartCount)
    (h : ∀ h, s.sbi_hartMask.getLsbD h = decide (h < P.hartCount ∧ 5 ≤ (s.pc h).rank)) (k : Nat) :
    s'.sbi_hartMask.getLsbD k = decide (k < P.hartCount ∧ 5 ≤ (s'.pc k).rank) := by
  have hsize : P.hartCount ≤ 8 := P.hartCount_le
  have hle := m.le
  rw [m.mask]
  by_cases hpass : (s.pc me).rank < 5 ∧ 5 ≤ pc.rank
  · rw [if_pos hpass, BitVec.getLsbD_or, h k, ← BitVec.twoPow_eq, BitVec.getLsbD_twoPow]
    by_cases hk : k = me
    · rw [hk, m.pc_me, decide_eq_true (by omega : me < 64), decide_eq_true rfl, Bool.and_true,
        Bool.or_true, decide_eq_true ⟨hme, hpass.2⟩]
    · rw [m.pc_of_ne hk, decide_eq_false (Ne.symm hk), Bool.and_false, Bool.or_false]
  · rw [if_neg hpass, h k]
    by_cases hk : k = me
    · rw [hk, m.pc_me]
      exact decide_eq_decide.mpr (by omega)
    · rw [m.pc_of_ne hk]

/-- A hart other than the elected one moves on. -/
theorem Elected.warm_move (h : Elected P b s) (m : Move s s' me pc) (hme : me < P.hartCount)
    (hne : me ≠ b) (hold : s.pc me ≠ .hsm) (hwarm : pc.warm = true)
    (hbehind : 4 ≤ pc.rank → 4 ≤ (s.pc b).rank) (hready : s'.bootReady = s.bootReady)
    (hid : s'.bootHartId = s.bootHartId) (hcount : s'.hartCount = s.hartCount)
    (hprepared : Prepared P (s'.hsm me) pc) (hparked : pc = .hsm → s'.hsm me = parked P .stopped) :
    Elected P b s' := by
  have hb : s'.pc b = s.pc b := m.pc_of_ne (Ne.symm hne)
  have hpassed : 14 ≤ (s.pc b).rank → ∀ h < P.hartCount, 12 ≤ (s'.pc h).rank := fun h14 k hk =>
    (h.passed h14 k hk).trans (m.rank_le k)
  -- A hart that has been counted waits in `hsm_hartWait`.
  have hstill : ¬14 ≤ (s.pc b).rank := fun h14 => by
    have hrank := h.passed h14 me hme
    have hw := h.warm me hme hne
    revert hold hrank hw
    cases s.pc me <;> simp [BootPc.rank, BootPc.warm]
  have hlow : ∀ left, s.pc b = .clearBss left → ¬4 ≤ pc.rank := fun left hpc h4 => by
    have hrank := hbehind h4
    rw [hpc, BootPc.rank_clearBss] at hrank
    omega
  constructor
  case lt => exact h.lt
  case lock => exact m.counter hme h.lock m.lock
  case cold => rw [hb]; exact h.cold
  case warm =>
    intro k hk hkb
    by_cases hkm : k = me
    · rw [hkm, m.pc_me]
      exact hwarm
    · rw [m.pc_of_ne hkm]
      exact h.warm k hk hkb
  case behind =>
    intro k hk hkb
    rw [hb]
    by_cases hkm : k = me
    · rw [hkm, m.pc_me]
      exact hbehind
    · rw [m.pc_of_ne hkm]
      exact h.behind k hk hkb
  case ready => rw [hready, hb]; exact h.ready
  case id => rw [hid, hb]; exact h.id
  case marked =>
    intro h2
    rw [hb] at h2
    exact m.marked hme (h.marked h2)
  case mark_cleared =>
    intro left hpc
    rw [hb] at hpc
    have hlow := hlow left hpc
    rw [m.mask, if_neg (by omega)]
    exact h.mark_cleared left hpc
  case counted =>
    intro h2
    rw [hb] at h2
    exact m.counter hme (h.counted h2) m.started
  case count_cleared =>
    intro left hpc
    rw [hb] at hpc
    have hlow := hlow left hpc
    rw [m.started, if_neg (by omega)]
    exact h.count_cleared left hpc
  case hartCount => rw [hcount, hb]; exact h.hartCount
  case prepared =>
    intro k hk
    by_cases hkm : k = me
    · rw [hkm, m.pc_me]
      exact hprepared
    · rw [m.pc_of_ne hkm, m.others k hkm]
      exact h.prepared k hk
  case passed => rw [hb]; exact hpassed
  case waiting =>
    intro h15 k hk hkb hpc
    rw [hb] at h15
    by_cases hkm : k = me
    · rw [hkm] at hpc ⊢
      exact hparked (m.pc_me ▸ hpc)
    · rw [m.pc_of_ne hkm] at hpc
      rw [m.others k hkm]
      exact h.waiting h15 k hk hkb hpc
  case running =>
    intro hpc
    rw [hb] at hpc
    exact absurd (by rw [hpc]; decide) hstill

/-- While `.bss` is cleared the other harts are not past their wait for it. -/
theorem Elected.low (h : Elected P b s) (hpc : (s.pc b).rank = 1) {k : Nat} (hk : k < P.hartCount) :
    (s.pc k).rank < 4 := by
  by_cases hkb : k = b
  · rw [hkb]
    omega
  · have hbehind := h.behind k hk hkb
    omega

theorem prepared_low {d : HsmHart} (h : pc.rank < 4) : Prepared P d pc ↔ Idle d := by
  cases pc <;> first | rfl | exact absurd h (by decide)

/-- When `.bss` has been cleared, the mask and the count are those of the harts so far. -/
theorem Elected.settled (h : Elected P b s) (hpc : 2 ≤ (s.pc b).rank ∨ s.pc b = .clearBss []) :
    (∀ h, s.sbi_hartMask.getLsbD h = decide (h < P.hartCount ∧ 5 ≤ (s.pc h).rank)) ∧
      s.hartsStarted = BitVec.ofNat 32 (s.past P 12) := by
  rcases hpc with h2 | hpc
  · exact ⟨h.marked h2, h.counted h2⟩
  · have hrank : (s.pc b).rank = 1 := by rw [hpc, BootPc.rank_clearBss]
    have hmask := (h.mark_cleared [] hpc).resolve_left List.not_mem_nil
    have hcount := (h.count_cleared [] hpc).resolve_left List.not_mem_nil
    have hnone : s.past P 12 = 0 := tally_eq_zero.mpr fun k hk => by
      have hlow := h.low hrank hk
      omega
    refine ⟨fun k => ?_, by rw [hcount, hnone]; rfl⟩
    have hno : ¬(k < P.hartCount ∧ 5 ≤ (s.pc k).rank) := fun hk => by
      have hlow := h.low hrank hk.1
      omega
    rw [hmask, decide_eq_false hno]
    exact BitVec.getLsbD_zero

/-- The elected hart moves on after it has cleared `.bss`. -/
theorem Elected.cold_move (h : Elected P b s) (m : Move s s' b pc)
    (hdone : 2 ≤ (s.pc b).rank ∨ s.pc b = .clearBss []) (h2 : 2 ≤ pc.rank)
    (hcold : pc.cold = true) (hready : s'.bootReady = 0 ↔ pc.rank ≤ 3)
    (hid : 3 ≤ pc.rank → s'.bootHartId = BitVec.ofNat 32 b)
    (hcount : 10 ≤ pc.rank → s'.hartCount = BitVec.ofNat 32 P.hartCount)
    (hprepared : Prepared P (s'.hsm b) pc)
    (hpassed : 14 ≤ pc.rank → ∀ h < P.hartCount, 12 ≤ (s.pc h).rank)
    (hrunning : pc = .hsm → ∃ t,
      Reachable (hsmStep P.hartCount) (fun _ _ => True) (hsmInit b P.payload P.fdt) t ∧
        ∀ h < P.hartCount, s'.hsm h = t h) :
    Elected P b s' := by
  have hle := m.le
  have hnot : ∀ left, s'.pc b ≠ .clearBss left := fun left hpc => by
    rw [m.pc_me] at hpc
    rw [hpc, BootPc.rank_clearBss] at h2
    omega
  obtain ⟨hmarked, hcounted⟩ := h.settled hdone
  constructor
  case lt => exact h.lt
  case lock => exact m.counter h.lt h.lock m.lock
  case cold => rw [m.pc_me]; exact hcold
  case warm =>
    intro k hk hkb
    rw [m.pc_of_ne hkb]
    exact h.warm k hk hkb
  case behind =>
    intro k hk hkb h4
    rw [m.pc_of_ne hkb] at h4
    rw [m.pc_me]
    exact (h.behind k hk hkb h4).trans hle
  case ready => rw [m.pc_me]; exact hready
  case id => rw [m.pc_me]; exact hid
  case marked => exact fun _ => m.marked h.lt hmarked
  case mark_cleared => exact fun left hpc => absurd hpc (hnot left)
  case counted => exact fun _ => m.counter h.lt hcounted m.started
  case count_cleared => exact fun left hpc => absurd hpc (hnot left)
  case hartCount => rw [m.pc_me]; exact hcount
  case prepared =>
    intro k hk
    by_cases hkb : k = b
    · rw [hkb, m.pc_me]
      exact hprepared
    · rw [m.pc_of_ne hkb, m.others k hkb]
      exact h.prepared k hk
  case passed =>
    rw [m.pc_me]
    exact fun h14 k hk => (hpassed h14 k hk).trans (m.rank_le k)
  case waiting =>
    intro h15 k hk hkb hpc
    rw [m.pc_me] at h15
    rw [m.pc_of_ne hkb] at hpc
    rw [m.others k hkb]
    exact h.waiting (by omega) k hk hkb hpc
  case running => rw [m.pc_me]; exact hrunning

theorem idle_clear (v : BssVar) {k : Nat} (h : Idle (s.hsm k)) : Idle ((s.clear v).hsm k) := by
  cases v with
  | perHartData hartid =>
      by_cases hk : k = hartid
      · subst hk
        simp only [Boot.clear, Boot.setData, change_self]
        exact h
      · simp only [Boot.clear, Boot.setData, change_of_ne s.hsm _ hk]
        exact h
  | _ => exact h

/-- What clearing a variable leaves alone. -/
theorem clear_frame (s : Boot) (v : BssVar) :
    (s.clear v).pc = s.pc ∧ (s.clear v).hartLock = s.hartLock ∧
      (s.clear v).bootReady = s.bootReady ∧
      ((s.clear v).sbi_hartMask = s.sbi_hartMask ∧ v ≠ .sbi_hartMask ∨
        (s.clear v).sbi_hartMask = 0) ∧
      ((s.clear v).hartsStarted = s.hartsStarted ∧ v ≠ .hartsStarted ∨
        (s.clear v).hartsStarted = 0) := by
  cases v <;> simp [Boot.clear, Boot.setData]

/-- The elected hart clears a variable. -/
theorem Elected.clear (h : Elected P b s) {v : BssVar} {left : List BssVar}
    (hpc : s.pc b = .clearBss (v :: left)) :
    Elected P b ((s.clear v).goto b (.clearBss left)) := by
  have hrank : (s.pc b).rank = 1 := by rw [hpc, BootPc.rank_clearBss]
  obtain ⟨hpcs, hlock, hready, hmask, hcount⟩ := clear_frame s v
  have hranks : ∀ k, (((s.clear v).goto b (.clearBss left)).pc k).rank = (s.pc k).rank := by
    intro k
    simp only [Boot.goto, hpcs]
    by_cases hk : k = b
    · rw [hk, Function.update_self, hrank, BootPc.rank_clearBss]
    · rw [Function.update_of_ne hk]
  have hb : ((s.clear v).goto b (.clearBss left)).pc b = .clearBss left := Function.update_self ..
  have hother : ∀ k ≠ b, ((s.clear v).goto b (.clearBss left)).pc k = s.pc k := by
    intro k hk
    simp only [Boot.goto, hpcs, Function.update_of_ne hk]
  constructor
  case lt => exact h.lt
  case lock =>
    have hpast : ((s.clear v).goto b (.clearBss left)).past P 1 = s.past P 1 :=
      tally_congr fun k _ => by rw [hranks k]
    rw [hpast]
    exact hlock.trans h.lock
  case cold => rw [hb]; rfl
  case warm =>
    intro k hk hkb
    rw [hother k hkb]
    exact h.warm k hk hkb
  case behind =>
    intro k hk hkb
    rw [hranks, hranks]
    exact h.behind k hk hkb
  case ready =>
    rw [hranks]
    exact hready ▸ h.ready
  case mark_cleared =>
    intro left' hleft
    rw [hb] at hleft
    cases hleft
    rcases hmask with ⟨hsame, hv⟩ | hzero
    · rcases h.mark_cleared _ hpc with hmem | hzero
      · exact Or.inl ((List.mem_cons.mp hmem).resolve_left fun heq => hv heq.symm)
      · exact Or.inr (hsame.trans hzero)
    · exact Or.inr hzero
  case count_cleared =>
    intro left' hleft
    rw [hb] at hleft
    cases hleft
    rcases hcount with ⟨hsame, hv⟩ | hzero
    · rcases h.count_cleared _ hpc with hmem | hzero
      · exact Or.inl ((List.mem_cons.mp hmem).resolve_left fun heq => hv heq.symm)
      · exact Or.inr (hsame.trans hzero)
    · exact Or.inr hzero
  case prepared =>
    intro k hk
    have hlow := h.low hrank hk
    refine (prepared_low (by rw [hranks]; exact hlow)).mpr (idle_clear v ?_)
    exact (prepared_low hlow).mp (h.prepared k hk)
  case waiting =>
    intro _ k hk hkb hhsm
    have hlow := h.low hrank hk
    rw [hother k hkb] at hhsm
    rw [hhsm] at hlow
    exact absurd hlow (by decide)
  all_goals
    rw [hb]
    first
      | exact fun hle => absurd hle (by rw [BootPc.rank_clearBss]; decide)
      | exact fun heq => nomatch heq

end Moves

section Steps
variable {P : Platform} {b me : Nat} {s : Boot}

/-- A hart of the range is told by its number. -/
theorem ofNat_eq_iff {h k : Nat} (hh : h < P.hartCount) (hk : k < P.hartCount) :
    BitVec.ofNat 32 h = BitVec.ofNat 32 k ↔ h = k := by
  have hsize : P.hartCount ≤ 8 := P.hartCount_le
  constructor
  · intro heq
    have hnat := congrArg BitVec.toNat heq
    rw [BitVec.toNat_ofNat, BitVec.toNat_ofNat] at hnat
    omega
  · intro heq
    rw [heq]

theorem past_toNat (P : Platform) (s : Boot) (rank : Nat) :
    (BitVec.ofNat 32 (s.past P rank)).toNat = s.past P rank := by
  have hsize : P.hartCount ≤ 8 := P.hartCount_le
  have hle : s.past P rank ≤ P.hartCount := tally_le
  rw [BitVec.toNat_ofNat]
  omega

/-- A hart finds the lock taken once the elected one has come. -/
theorem Elected.lock_ne (h : Elected P b s) : s.hartLock ≠ 0 := by
  intro hzero
  have hnat := congrArg BitVec.toNat h.lock
  rw [past_toNat, hzero] at hnat
  have hnone := tally_eq_zero.mp hnat.symm b h.lt
  have hcold := h.cold
  revert hnone hcold
  cases s.pc b <;> simp [BootPc.rank, BootPc.cold]

theorem move_goto {s₁ : Boot} {from_ pc : BootPc} (hpc : s.pc me = from_) (hpcs : s₁.pc = s.pc)
    (hle : from_.rank ≤ pc.rank) (hothers : ∀ h ≠ me, s₁.hsm h = s.hsm h)
    (hlock : s₁.hartLock =
      if from_.rank < 1 ∧ 1 ≤ pc.rank then s.hartLock + 1 else s.hartLock)
    (hmask : s₁.sbi_hartMask =
      if from_.rank < 5 ∧ 5 ≤ pc.rank then s.sbi_hartMask ||| 1#64 <<< me else s.sbi_hartMask)
    (hstarted : s₁.hartsStarted =
      if from_.rank < 12 ∧ 12 ≤ pc.rank then s.hartsStarted + 1 else s.hartsStarted) :
    Move s (s₁.goto me pc) me pc := by
  subst hpc
  exact ⟨by rw [← hpcs]; rfl, hle, hothers, hlock, hmask, hstarted⟩

theorem setData_self (s : Boot) (me : Nat) (pc : BootPc) (f : HsmHart → HsmHart) :
    ((s.setData me f).goto me pc).hsm me = f (s.hsm me) := change_self ..

theorem setData_of_ne (s : Boot) (f : HsmHart → HsmHart) :
    ∀ h ≠ me, (s.setData me f).hsm h = s.hsm h := fun _ hne => change_of_ne _ _ hne

/-- Preparing one's own data, in three steps. -/
theorem prepared_state {d : HsmHart} (h : Prepared P d .scratchState) :
    Prepared P { d with state := .stopped } .scratchAddr := ⟨h, rfl⟩

theorem prepared_addr {d : HsmHart} (h : Prepared P d .scratchAddr) :
    Prepared P { d with nextAddr := P.payload } .scratchArg1 := ⟨h.1, h.2, rfl⟩

theorem prepared_arg1 {d : HsmHart} (h : Prepared P d .scratchArg1) :
    Prepared P { d with nextArg1 := P.fdt } .entry := by
  obtain ⟨⟨hpc, hjumped, hret, hcall, hsuccesses⟩, hstate, haddr⟩ := h
  cases d
  simp only at hpc hjumped hret hcall hsuccesses hstate haddr
  simp only [Prepared, parked, hpc, hjumped, hret, hcall, hsuccesses, hstate, haddr]

/-- A hart past the wait for the boot hart finds its number. -/
theorem Elected.id_of_past (h : Elected P b s) (hme : me < P.hartCount) (h4 : 4 ≤ (s.pc me).rank) :
    BitVec.ofNat 32 me = s.bootHartId ↔ me = b := by
  have hb : 4 ≤ (s.pc b).rank := by
    by_cases hmb : me = b
    · exact hmb ▸ h4
    · exact h.behind me hme hmb h4
  rw [h.id (by omega), ofNat_eq_iff hme h.lt]

theorem elected_warm (h : Elected P b s) (hme : me < P.hartCount) (hne : me ≠ b) :
    Elected P b (bootNext P s me) := by
  have hprepared := h.prepared me hme
  have hbehind := h.behind me hme hne
  have hwarm := h.warm me hme hne
  have hid := h.id_of_past hme
  have hhsm : ∀ pc, s.pc me = pc → pc ≠ .hsm → s.pc me ≠ .hsm := fun pc hpc hne => hpc ▸ hne
  rw [bootNext]
  cases hpc : s.pc me with
  | reset =>
      rw [hpc] at hprepared
      simp only [if_pos h.lock_ne]
      exact h.warm_move (move_goto hpc rfl (by decide) (fun _ _ => rfl) rfl rfl rfl) hme hne
        (hhsm _ hpc nofun) rfl (fun h4 => absurd h4 (by decide)) rfl rfl rfl hprepared nofun
  | waitBootHart =>
      rw [hpc] at hprepared
      simp only
      split
      · exact h
      · next hready =>
        have hb : 4 ≤ (s.pc b).rank := by
          have hlow := mt h.ready.mpr hready
          omega
        exact h.warm_move (move_goto hpc rfl (by decide) (fun _ _ => rfl) rfl rfl rfl) hme hne
          (hhsm _ hpc nofun) rfl (fun _ => hb) rfl rfl rfl hprepared nofun
  | markHart =>
      rw [hpc] at hprepared hbehind
      exact h.warm_move (move_goto hpc rfl (by decide) (fun _ _ => rfl) rfl rfl rfl) hme hne
        (hhsm _ hpc nofun) rfl (fun _ => hbehind (by decide)) rfl rfl rfl hprepared nofun
  | scratchState =>
      rw [hpc] at hprepared hbehind
      exact h.warm_move (move_goto hpc rfl (by decide) (setData_of_ne s _) rfl rfl rfl) hme hne
        (hhsm _ hpc nofun) rfl (fun _ => hbehind (by decide)) rfl rfl rfl
        (by rw [setData_self]; exact prepared_state hprepared) nofun
  | scratchAddr =>
      rw [hpc] at hprepared hbehind
      exact h.warm_move (move_goto hpc rfl (by decide) (setData_of_ne s _) rfl rfl rfl) hme hne
        (hhsm _ hpc nofun) rfl (fun _ => hbehind (by decide)) rfl rfl rfl
        (by rw [setData_self]; exact prepared_addr hprepared) nofun
  | scratchArg1 =>
      rw [hpc] at hprepared hbehind
      exact h.warm_move (move_goto hpc rfl (by decide) (setData_of_ne s _) rfl rfl rfl) hme hne
        (hhsm _ hpc nofun) rfl (fun _ => hbehind (by decide)) rfl rfl rfl
        (by rw [setData_self]; exact prepared_arg1 hprepared) nofun
  | entry =>
      rw [hpc] at hprepared hbehind hid
      simp only [if_neg (mt (hid (by decide)).mp hne)]
      exact h.warm_move (move_goto hpc rfl (by decide) (fun _ _ => rfl) rfl rfl rfl) hme hne
        (hhsm _ hpc nofun) rfl (fun _ => hbehind (by decide)) rfl rfl rfl hprepared nofun
  | hsmInit =>
      rw [hpc] at hprepared hbehind hid
      simp only [if_neg (mt (hid (by decide)).mp hne)]
      exact h.warm_move (move_goto hpc rfl (by decide) (fun _ _ => rfl) rfl rfl rfl) hme hne
        (hhsm _ hpc nofun) rfl (fun _ => hbehind (by decide)) rfl rfl rfl hprepared nofun
  | countWarm =>
      rw [hpc] at hprepared hbehind
      exact h.warm_move (move_goto hpc rfl (by decide) (fun _ _ => rfl) rfl rfl rfl) hme hne
        (hhsm _ hpc nofun) rfl (fun _ => hbehind (by decide)) rfl rfl rfl trivial fun _ => hprepared
  | hsm => exact h
  | _ =>
      rw [hpc] at hwarm
      exact absurd hwarm Bool.false_ne_true

/-- The barrier is passed when all harts have been counted. -/
theorem Elected.counted_all (h : Elected P b s) (hpc : s.pc b = .barrier)
    (hlt : ¬s.hartsStarted < s.hartCount) : ∀ k < P.hartCount, 12 ≤ (s.pc k).rank := by
  have hsize : P.hartCount ≤ 8 := P.hartCount_le
  have hstarted := h.counted (by rw [hpc]; decide)
  have hcount := h.hartCount (by rw [hpc]; decide)
  have hle : s.past P 12 ≤ P.hartCount := tally_le
  rw [hstarted, hcount, BitVec.lt_def, past_toNat, BitVec.toNat_ofNat] at hlt
  exact tally_eq_self.mp (show s.past P 12 = P.hartCount by omega)

/-- A hart that was not elected waits in `hsm_hartWait` when all have been counted. -/
theorem Elected.hsm_of_counted (h : Elected P b s) {k : Nat} (hk : k < P.hartCount) (hne : k ≠ b)
    (h12 : 12 ≤ (s.pc k).rank) : s.pc k = .hsm := by
  have hw := h.warm k hk hne
  revert h12 hw
  cases s.pc k <;> simp [BootPc.rank, BootPc.warm]

/-- When the boot hart is about to start itself, the data of all harts is as `Hsm` has it
at first. -/
theorem Elected.hsm_started (h : Elected P b s) (hpc : s.pc b = .devices) : ∀ k < P.hartCount,
    change s.hsm b (fun d => { d with pc := .startJump }) k = hsmInit b P.payload P.fdt k := by
  have hpassed := h.passed (by rw [hpc]; decide)
  have hprepared := h.prepared b h.lt
  rw [hpc] at hprepared
  intro k hk
  by_cases hkb : k = b
  · rw [hkb, change_self, hprepared, hsmInit, if_pos rfl, if_pos rfl]
    rfl
  · have hpark := h.waiting (by rw [hpc]; decide) k hk hkb (h.hsm_of_counted hk hkb (hpassed k hk))
    rw [change_of_ne _ _ hkb, hpark, hsmInit, if_neg hkb, if_neg hkb]
    rfl

theorem elected_cold (h : Elected P b s) : Elected P b (bootNext P s b) := by
  have hprepared := h.prepared b h.lt
  have hready := h.ready
  have hid := h.id
  have hcount := h.hartCount
  have hself := h.id_of_past h.lt
  have hcold := h.cold
  rw [bootNext]
  cases hpc : s.pc b with
  | clearBss left =>
      cases left with
      | nil =>
          rw [hpc] at hprepared hready
          exact h.cold_move (move_goto hpc rfl (by decide) (fun _ _ => rfl) rfl rfl rfl)
            (Or.inr hpc) (by decide) rfl (iff_of_true (hready.mpr (by decide)) (by decide))
            (fun h3 => absurd h3 (by decide)) (fun h10 => absurd h10 (by decide)) hprepared
            (fun h14 => absurd h14 (by decide)) nofun
      | cons v left => exact h.clear hpc
  | setBootHartId =>
      rw [hpc] at hprepared hready
      exact h.cold_move (move_goto hpc rfl (by decide) (fun _ _ => rfl) rfl rfl rfl)
        (Or.inl (by rw [hpc]; decide)) (by decide) rfl
        (iff_of_true (hready.mpr (by decide)) (by decide)) (fun _ => rfl)
        (fun h10 => absurd h10 (by decide)) hprepared (fun h14 => absurd h14 (by decide)) nofun
  | setBootReady =>
      rw [hpc] at hprepared hready hid
      have hzero := hready.mpr (by decide)
      exact h.cold_move (move_goto hpc rfl (by decide) (fun _ _ => rfl) rfl rfl rfl)
        (Or.inl (by rw [hpc]; decide)) (by decide) rfl
        (iff_of_false (by simp only [Boot.goto, hzero]; decide) (by decide))
        (fun _ => hid (by decide)) (fun h10 => absurd h10 (by decide)) hprepared
        (fun h14 => absurd h14 (by decide)) nofun
  | markHart =>
      rw [hpc] at hprepared hready hid
      exact h.cold_move (move_goto hpc rfl (by decide) (fun _ _ => rfl) rfl rfl rfl)
        (Or.inl (by rw [hpc]; decide)) (by decide) rfl
        (iff_of_false (mt hready.mp (by decide)) (by decide)) (fun _ => hid (by decide))
        (fun h10 => absurd h10 (by decide)) hprepared (fun h14 => absurd h14 (by decide)) nofun
  | scratchState =>
      rw [hpc] at hprepared hready hid
      exact h.cold_move (move_goto hpc rfl (by decide) (setData_of_ne s _) rfl rfl rfl)
        (Or.inl (by rw [hpc]; decide)) (by decide) rfl
        (iff_of_false (mt hready.mp (by decide)) (by decide)) (fun _ => hid (by decide))
        (fun h10 => absurd h10 (by decide)) (by rw [setData_self]; exact prepared_state hprepared)
        (fun h14 => absurd h14 (by decide)) nofun
  | scratchAddr =>
      rw [hpc] at hprepared hready hid
      exact h.cold_move (move_goto hpc rfl (by decide) (setData_of_ne s _) rfl rfl rfl)
        (Or.inl (by rw [hpc]; decide)) (by decide) rfl
        (iff_of_false (mt hready.mp (by decide)) (by decide)) (fun _ => hid (by decide))
        (fun h10 => absurd h10 (by decide)) (by rw [setData_self]; exact prepared_addr hprepared)
        (fun h14 => absurd h14 (by decide)) nofun
  | scratchArg1 =>
      rw [hpc] at hprepared hready hid
      exact h.cold_move (move_goto hpc rfl (by decide) (setData_of_ne s _) rfl rfl rfl)
        (Or.inl (by rw [hpc]; decide)) (by decide) rfl
        (iff_of_false (mt hready.mp (by decide)) (by decide)) (fun _ => hid (by decide))
        (fun h10 => absurd h10 (by decide)) (by rw [setData_self]; exact prepared_arg1 hprepared)
        (fun h14 => absurd h14 (by decide)) nofun
  | entry =>
      rw [hpc] at hprepared hready hid hself
      simp only [if_pos ((hself (by decide)).mpr rfl)]
      exact h.cold_move (move_goto hpc rfl (by decide) (fun _ _ => rfl) rfl rfl rfl)
        (Or.inl (by rw [hpc]; decide)) (by decide) rfl
        (iff_of_false (mt hready.mp (by decide)) (by decide)) (fun _ => hid (by decide))
        (fun h10 => absurd h10 (by decide)) hprepared (fun h14 => absurd h14 (by decide)) nofun
  | initCold =>
      rw [hpc] at hprepared hready hid
      exact h.cold_move (move_goto hpc rfl (by decide) (fun _ _ => rfl) rfl rfl rfl)
        (Or.inl (by rw [hpc]; decide)) (by decide) rfl
        (iff_of_false (mt hready.mp (by decide)) (by decide)) (fun _ => hid (by decide))
        (fun _ => rfl) hprepared (fun h14 => absurd h14 (by decide)) nofun
  | hsmInit =>
      rw [hpc] at hprepared hready hid hcount hself
      simp only [if_pos ((hself (by decide)).mpr rfl)]
      exact h.cold_move (move_goto hpc rfl (by decide) (fun _ _ => rfl) rfl rfl rfl)
        (Or.inl (by rw [hpc]; decide)) (by decide) rfl
        (iff_of_false (mt hready.mp (by decide)) (by decide)) (fun _ => hid (by decide))
        (fun _ => hcount (by decide)) hprepared (fun h14 => absurd h14 (by decide)) nofun
  | countCold =>
      rw [hpc] at hprepared hready hid hcount
      exact h.cold_move (move_goto hpc rfl (by decide) (fun _ _ => rfl) rfl rfl rfl)
        (Or.inl (by rw [hpc]; decide)) (by decide) rfl
        (iff_of_false (mt hready.mp (by decide)) (by decide)) (fun _ => hid (by decide))
        (fun _ => hcount (by decide)) hprepared (fun h14 => absurd h14 (by decide)) nofun
  | setPending =>
      rw [hpc] at hprepared hready hid hcount
      exact h.cold_move (move_goto hpc rfl (by decide) (setData_of_ne s _) rfl rfl rfl)
        (Or.inl (by rw [hpc]; decide)) (by decide) rfl
        (iff_of_false (mt hready.mp (by decide)) (by decide)) (fun _ => hid (by decide))
        (fun _ => hcount (by decide)) (by rw [setData_self, hprepared]; rfl)
        (fun h14 => absurd h14 (by decide)) nofun
  | barrier =>
      rw [hpc] at hprepared hready hid hcount
      simp only
      split
      · exact h
      · next hlt =>
        exact h.cold_move (move_goto hpc rfl (by decide) (fun _ _ => rfl) rfl rfl rfl)
          (Or.inl (by rw [hpc]; decide)) (by decide) rfl
          (iff_of_false (mt hready.mp (by decide)) (by decide)) (fun _ => hid (by decide))
          (fun _ => hcount (by decide)) hprepared (fun _ => h.counted_all hpc hlt) nofun
  | devices =>
      rw [hpc] at hprepared hready hid hcount
      exact h.cold_move (move_goto hpc rfl (by decide) (setData_of_ne s _) rfl rfl rfl)
        (Or.inl (by rw [hpc]; decide)) (by decide) rfl
        (iff_of_false (mt hready.mp (by decide)) (by decide)) (fun _ => hid (by decide))
        (fun _ => hcount (by decide)) trivial (fun _ => h.passed (by rw [hpc]; decide))
        fun _ => ⟨_, .init, h.hsm_started hpc⟩
  | hsm => exact h
  | _ =>
      rw [hpc] at hcold
      exact absurd hcold Bool.false_ne_true

end Steps

end Plo.Sbi
