import Plo.Sbi.HsmRuns

/-!
What a hart jumps with. The parameters of the call that claimed a start are written
after the start is pending: a hart that reads them only when no call is about to
write them jumps with the parameters of that call, and one that is faster with the
ones it was set up with.
-/
namespace Plo.Sbi

section Faithful
variable {boot : Nat} {s : Nat → HsmHart}

/-- The hart reads its parameters. -/
def Pc.Reading : Pc → Prop
  | .params _ _ => True
  | _ => False

/-- What a hart has read is what the call that claimed its start has passed. -/
structure Faithful (d : HsmHart) : Prop where
  claimed : ∀ nextArg1 nextAddr, d.pc = .params nextArg1 nextAddr → d.state ≠ .stopped
  arg1 : ∀ v nextAddr, d.pc = .params (some v) nextAddr → ∃ c, d.call = some c ∧ v = c.opaque_
  addr : ∀ v nextArg1, d.pc = .params nextArg1 (some v) → ∃ c, d.call = some c ∧ v = c.startAddr
  jumped : ∀ addr arg, d.jumped = some (addr, arg) →
    ∃ c, d.call = some c ∧ addr = c.startAddr ∧ arg = c.opaque_

/-- A hart that is not reading has read nothing. -/
theorem faithful_of_not_reading {d : HsmHart} (hpc : ¬ d.pc.Reading)
    (hjumped : ∀ addr arg, d.jumped = some (addr, arg) →
      ∃ c, d.call = some c ∧ addr = c.startAddr ∧ arg = c.opaque_) : Faithful d := by
  have hnot {x y : Option (BitVec 64)} (hp : d.pc = .params x y) : False := by
    rw [hp] at hpc
    exact hpc trivial
  exact ⟨fun _ _ hp => (hnot hp).elim, fun _ _ hp => (hnot hp).elim,
    fun _ _ hp => (hnot hp).elim, hjumped⟩

theorem Faithful.congr {d d' : HsmHart} (h : Faithful d)
    (hpc : d'.pc = d.pc ∨ ¬ d'.pc.Reading)
    (hstate : d.state ≠ .stopped → d'.state ≠ .stopped)
    (hcall : ∀ c, d.call = some c → d'.call = some c) (hjumped : d'.jumped = d.jumped) :
    Faithful d' := by
  have hold (x y : Option (BitVec 64)) (hp : d'.pc = .params x y) : d.pc = .params x y := by
    cases hpc with
    | inl heq => exact heq ▸ hp
    | inr hnot =>
        rw [hp] at hnot
        exact absurd trivial hnot
  refine ⟨fun x y hp => hstate (h.claimed x y (hold x y hp)), fun v y hp => ?_,
    fun v x hp => ?_, fun addr arg hj => ?_⟩
  · obtain ⟨c, hc, hv⟩ := h.arg1 v y (hold _ _ hp)
    exact ⟨c, hcall c hc, hv⟩
  · obtain ⟨c, hc, hv⟩ := h.addr v x (hold _ _ hp)
    exact ⟨c, hcall c hc, hv⟩
  · obtain ⟨c, hc, hv⟩ := h.jumped addr arg (hjumped ▸ hj)
    exact ⟨c, hcall c hc, hv⟩

def AllFaithful (boot : Nat) (s : Nat → HsmHart) : Prop := ∀ t ≠ boot, Faithful (s t)

theorem faithful_change {f : HsmHart → HsmHart} {me : Nat} (h : AllFaithful boot s)
    (hf : me ≠ boot → Faithful (s me) → Faithful (f (s me))) :
    AllFaithful boot (change s me f) := by
  intro t ht
  by_cases htm : t = me
  · subst htm
    rw [change_self]
    exact hf ht (h t ht)
  · rw [change_of_ne _ _ htm]
    exact h t ht

/-- A hart reads a start parameter only when no call is about to write it. -/
def Orderly (s : Nat → HsmHart) : HsmStep → Prop
  | .readAddr me => ∀ h startAddr opaque_, (s h).pc ≠ .writeAddr me startAddr opaque_
  | .readArg1 me => ∀ h opaque_, (s h).pc ≠ .writeArg1 me opaque_ ∧
      ∀ startAddr, (s h).pc ≠ .writeAddr me startAddr opaque_
  | _ => True

/-- The call that claimed the start of a hart that has left the stopped state. -/
theorem exists_claim (h : HsmInv boot s) {t : Nat} (ht : t ≠ boot)
    (hstate : (s t).state ≠ .stopped) :
    ∃ c, (s t).call = some c ∧ Progress (s c.caller).pc t c (s t) := by
  cases hcall : (s t).call with
  | none => exact absurd (((h.claimed t).none hcall).2.1 ht) hstate
  | some c => exact ⟨c, rfl, ((h.claimed t).some c hcall).2.2⟩

/-- A step of a call changes neither what harts have read nor whose call it was. -/
theorem faithful_call (h : AllFaithful boot s) {me hartid : Nat} {f : HsmHart → HsmHart} {pc : Pc}
    {ret : Option Int} (hpc : ∀ d, (f d).pc = d.pc)
    (hstate : (s hartid).state ≠ .stopped → (f (s hartid)).state ≠ .stopped)
    (hcall : ∀ c, (s hartid).call = some c → (f (s hartid)).call = some c)
    (hjumped : ∀ d, (f d).jumped = d.jumped) (hto : ¬ pc.Reading) :
    AllFaithful boot (change (change s hartid f) me (.goto pc ret)) := by
  refine faithful_change (faithful_change h fun _ hold => ?_) fun _ hold => ?_
  · exact hold.congr (Or.inl (hpc _)) hstate hcall (hjumped _)
  · exact hold.congr (Or.inr hto) id (fun _ => id) rfl

theorem faithful_next (h : AllFaithful boot s) (me : Nat) : AllFaithful boot (hsmNext s me) := by
  simp only [hsmNext]
  split
  · split
    · exact faithful_change h fun _ hold => hold.congr (Or.inr id) id (fun _ => id) rfl
    · exact h
  · split
    · refine faithful_change h fun _ hold => ⟨fun x y _ hs => ?_, fun v y hp => ?_,
        fun v x hp => ?_, hold.jumped⟩
      · cases hs
      · cases hp
      · cases hp
    · exact faithful_change h fun _ hold => hold.congr (Or.inr id) id (fun _ => id) rfl
  · next nextArg1 nextAddr hpc =>
    refine faithful_change h fun _ hold => faithful_of_not_reading id fun addr arg hj => ?_
    cases hj
    obtain ⟨c, hc, hv⟩ := hold.arg1 nextArg1 _ hpc
    obtain ⟨c', hc', ha⟩ := hold.addr nextAddr _ hpc
    cases hc.symm.trans hc'
    exact ⟨c, hc, ha, hv⟩
  · exact faithful_call h (fun _ => rfl) id (fun _ => id) (fun _ => rfl) id
  · exact faithful_call h (fun _ => rfl) id (fun _ => id) (fun _ => rfl) id
  · exact faithful_call h (fun _ => rfl) id (fun _ => id) (fun _ => rfl) id
  · exact h

theorem faithful_hartStart (h : HsmInv boot s) (hall : AllFaithful boot s) (hartCount me hartid : Nat)
    (startAddr opaque_ : BitVec 64) :
    AllFaithful boot (hartStart hartCount s me hartid startAddr opaque_) := by
  have herror (ret : Int) : AllFaithful boot (change s me fun d => { d with ret := some ret }) :=
    faithful_change hall fun _ hold => hold.congr (Or.inl rfl) id (fun _ => id) rfl
  simp only [hartStart]
  split
  · exact herror _
  · split
    · exact herror _
    · exact herror _
    · next hstopped =>
      refine faithful_call hall (fun _ => rfl) (fun _ hs => ?_) (fun c hc => ?_) (fun _ => rfl) id
      · cases hs
      · exact absurd hstopped ((h.claimed hartid).some c hc).1

theorem faithful_step (h : HsmInv boot s) (hall : AllFaithful boot s) (hartCount : Nat)
    (i : HsmStep) (hi : Orderly s i) : AllFaithful boot (hsmStep hartCount s i) := by
  cases i with
  | call me hartid startAddr opaque_ =>
      simp only [hsmStep]
      split
      · exact faithful_hartStart h hall hartCount me hartid startAddr opaque_
      · exact hall
  | next me => exact faithful_next hall me
  | readArg1 me =>
      simp only [hsmStep]
      split
      · next nextAddr hpc =>
        refine faithful_change hall fun hme hold => ?_
        obtain ⟨c, hc, hprogress⟩ := exists_claim h hme (hold.claimed _ _ hpc)
        have harg : (s me).nextArg1 = c.opaque_ := by
          cases hprogress with
          | claimed hp => exact absurd hp ((hi c.caller c.opaque_).2 c.startAddr)
          | wroteAddr hp => exact absurd hp (hi c.caller c.opaque_).1
          | wroteArg1 _ _ harg => exact harg
          | returned _ _ harg => exact harg
        refine ⟨fun x y _ => hold.claimed _ _ hpc, fun v y hp => ?_, fun v x hp => ?_, hold.jumped⟩
        · cases hp
          exact ⟨c, hc, harg⟩
        · cases hp
          exact hold.addr v none hpc
      · exact hall
  | readAddr me =>
      simp only [hsmStep]
      split
      · next nextArg1 hpc =>
        refine faithful_change hall fun hme hold => ?_
        obtain ⟨c, hc, hprogress⟩ := exists_claim h hme (hold.claimed _ _ hpc)
        have haddr : (s me).nextAddr = c.startAddr := by
          cases hprogress with
          | claimed hp => exact absurd hp (hi c.caller c.startAddr c.opaque_)
          | wroteAddr _ haddr => exact haddr
          | wroteArg1 _ haddr => exact haddr
          | returned _ haddr => exact haddr
        refine ⟨fun x y _ => hold.claimed _ _ hpc, fun v y hp => ?_, fun v x hp => ?_, hold.jumped⟩
        · cases hp
          exact hold.arg1 v none hpc
        · cases hp
          exact ⟨c, hc, haddr⟩
      · exact hall

end Faithful

/-- In every run, at most one call of `hsm_hartStart` for a hart returns success. In
every run in which harts read their parameters only when no call is about to write
them, a hart other than the boot hart jumps with the parameters of the call that
moved it out of the stopped state. -/
theorem orderly_starts_jump_with_their_parameters (hartCount boot : Nat) (payload fdt : BitVec 64)
    (s : Nat → HsmHart) (t : Nat) :
    (Reachable (hsmStep hartCount) (fun _ _ => True) (hsmInit boot payload fdt) s →
      (s t).successes ≤ 1) ∧
    (Reachable (hsmStep hartCount) Orderly (hsmInit boot payload fdt) s → t ≠ boot →
      ∀ addr arg, (s t).jumped = some (addr, arg) →
        ∃ c, (s t).call = some c ∧ addr = c.startAddr ∧ arg = c.opaque_) := by
  constructor
  · intro hreach
    have hinv : HsmInv boot s :=
      hreach.invariant (hsmInv_init boot payload fdt) fun _ i hs _ => hsmInv_step hs hartCount i
    cases hcall : (s t).call with
    | none =>
        have := ((hinv.claimed t).none hcall).1
        omega
    | some c =>
        cases ((hinv.claimed t).some c hcall).2.2 with
        | claimed _ hret => omega
        | wroteAddr _ _ hret => omega
        | wroteArg1 _ _ _ hret => omega
        | returned _ _ _ hret => omega
  · intro hreach ht
    have hinv : HsmInv boot s ∧ AllFaithful boot s := by
      refine hreach.invariant (I := fun s => HsmInv boot s ∧ AllFaithful boot s)
        ⟨hsmInv_init boot payload fdt, ?_⟩ ?_
      · intro k hk
        simp only [hsmInit, if_neg hk]
        refine faithful_of_not_reading id fun addr arg hj => ?_
        cases hj
      · intro s i hs hi
        exact ⟨hsmInv_step hs.1 hartCount i, faithful_step hs.1 hs.2 hartCount i hi⟩
    exact (hinv.2 t ht).jumped

/-- The boot hart 0 reaches S-mode and calls `hsm_hartStart` for hart 1, which sees
the pending start and jumps after the given steps. -/
def startSteps (between : List HsmStep) : List HsmStep :=
  [.next 0, .readArg1 0, .readAddr 0, .next 0, .call 0 1 0x1000 7] ++ between ++
    [.next 1, .next 1, .readArg1 1, .readAddr 1, .next 1]

def startRun (between : List HsmStep) : Nat → HsmHart :=
  (startSteps between).foldl (hsmStep 2) (hsmInit 0 0x80200000 0x82000000)

theorem orderly_of_idle {s : Nat → HsmHart} (h : ∀ k t, ¬ (s k).pc.Starting t) (i : HsmStep) :
    Orderly s i := by
  have hne {k t : Nat} {pc : Pc} (hpc : pc.Starting t) : (s k).pc ≠ pc := by
    intro heq
    exact h k t (heq ▸ hpc)
  cases i with
  | call | next => trivial
  | readArg1 me => exact fun k o => ⟨hne (t := me) rfl, fun a => hne (t := me) rfl⟩
  | readAddr me => exact fun k a o => hne (t := me) rfl

theorem orderly_starts_jump_with_their_parameters_two :
    (startRun [.next 0, .next 0, .next 0] 1).successes ≤ 1 ∧
      (startRun [.next 0, .next 0, .next 0] 1).jumped = some (0x1000, 7) ∧
      ∃ c, (startRun [.next 0, .next 0, .next 0] 1).call = some c ∧ 0x1000 = c.startAddr ∧
        7 = c.opaque_ := by
  have hidle {s : Nat → HsmHart} {pc₀ pc₁ : Pc} (h₀ : (s 0).pc = pc₀) (h₁ : (s 1).pc = pc₁)
      (hrest : ∀ n, (s (n + 2)).pc = .wait) (hpc₀ : ∀ t, ¬ pc₀.Starting t)
      (hpc₁ : ∀ t, ¬ pc₁.Starting t) (i : HsmStep) : Orderly s i := by
    refine orderly_of_idle (fun k t => ?_) i
    match k with
    | 0 => exact h₀ ▸ hpc₀ t
    | 1 => exact h₁ ▸ hpc₁ t
    | n + 2 => exact (hrest n).symm ▸ id
  have hreach : Reachable (hsmStep 2) Orderly (hsmInit 0 0x80200000 0x82000000)
      (startRun [.next 0, .next 0, .next 0]) := by
    have hboot : Reachable (hsmStep 2) Orderly (hsmInit 0 0x80200000 0x82000000) _ := .init
    have h₁ := hboot.step (i := HsmStep.next 0) trivial
    have h₂ := h₁.step (i := HsmStep.readArg1 0)
      (hidle rfl rfl (fun _ => rfl) (fun _ => id) (fun _ => id) _)
    have h₃ := h₂.step (i := HsmStep.readAddr 0)
      (hidle rfl rfl (fun _ => rfl) (fun _ => id) (fun _ => id) _)
    have h₄ := h₃.step (i := HsmStep.next 0) trivial
    have h₅ := h₄.step (i := HsmStep.call 0 1 0x1000 7) trivial
    have h₆ := h₅.step (i := HsmStep.next 0) trivial
    have h₇ := h₆.step (i := HsmStep.next 0) trivial
    have h₈ := h₇.step (i := HsmStep.next 0) trivial
    have h₉ := h₈.step (i := HsmStep.next 1) trivial
    have h₁₀ := h₉.step (i := HsmStep.next 1) trivial
    have h₁₁ := h₁₀.step (i := HsmStep.readArg1 1)
      (hidle rfl rfl (fun _ => rfl) (fun _ => id) (fun _ => id) _)
    have h₁₂ := h₁₁.step (i := HsmStep.readAddr 1)
      (hidle rfl rfl (fun _ => rfl) (fun _ => id) (fun _ => id) _)
    exact h₁₂.step (i := HsmStep.next 1) trivial
  have hresult := orderly_starts_jump_with_their_parameters 2 0 0x80200000 0x82000000
    (startRun [.next 0, .next 0, .next 0]) 1
  have hjumped : (startRun [.next 0, .next 0, .next 0] 1).jumped = some (0x1000, 7) := by decide
  exact ⟨by decide, hjumped, hresult.2 hreach (by decide) _ _ hjumped⟩

/-- Hart 1 reads its parameters before the call has written them. -/
theorem start_reads_stale_parameters :
    (startRun [] 1).jumped = some (0x80200000, 0x82000000) ∧
      (startRun [] 1).call = some ⟨0, 0x1000, 7⟩ := by
  decide

end Plo.Sbi
