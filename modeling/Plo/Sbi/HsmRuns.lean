import Plo.Sbi.Hsm

/-!
Who starts a hart, over whole runs. A hart leaves the stopped state once, so at most
one call of `hsm_hartStart` claims it; that call alone writes its parameters, one
step after the other, and then returns.
-/
namespace Plo.Sbi

/-- The hart is in a call that claimed the start of `t`. -/
def Pc.Starting (pc : Pc) (t : Nat) : Prop :=
  match pc with
  | .writeAddr hartid _ _ | .writeArg1 hartid _ | .ipiSend hartid => hartid = t
  | _ => False

/-- How far a call that claimed the start of `t` has come, where its caller is at
`pc`, and what it has left in the data of `t`. -/
inductive Progress (pc : Pc) (t : Nat) (c : StartCall) (d : HsmHart) : Prop
  | claimed (hpc : pc = .writeAddr t c.startAddr c.opaque_) (hret : d.successes = 0)
  | wroteAddr (hpc : pc = .writeArg1 t c.opaque_) (haddr : d.nextAddr = c.startAddr)
      (hret : d.successes = 0)
  | wroteArg1 (hpc : pc = .ipiSend t) (haddr : d.nextAddr = c.startAddr)
      (harg : d.nextArg1 = c.opaque_) (hret : d.successes = 0)
  | returned (hpc : ¬ pc.Starting t) (haddr : d.nextAddr = c.startAddr)
      (harg : d.nextArg1 = c.opaque_) (hret : d.successes = 1)

/-- One call at most has claimed the start of `t`. -/
structure Claimed (boot : Nat) (s : Nat → HsmHart) (t : Nat) : Prop where
  none : (s t).call = none →
    (s t).successes = 0 ∧ (t ≠ boot → (s t).state = .stopped) ∧ ∀ h, ¬ (s h).pc.Starting t
  some : ∀ c, (s t).call = some c →
    (s t).state ≠ .stopped ∧ (∀ h, (s h).pc.Starting t → h = c.caller) ∧
      Progress (s c.caller).pc t c (s t)

section Frame
variable {boot t : Nat} {s s' : Nat → HsmHart}

theorem Progress.congr {pc pc' : Pc} {c : StartCall} {d d' : HsmHart} (h : Progress pc t c d)
    (haddr : d'.nextAddr = d.nextAddr) (harg : d'.nextArg1 = d.nextArg1)
    (hret : d'.successes = d.successes) (hpc : pc' = pc ∨ ¬ pc.Starting t ∧ ¬ pc'.Starting t) :
    Progress pc' t c d' := by
  cases h with
  | claimed hc hr =>
      have hstart : pc.Starting t := hc ▸ rfl
      cases hpc with
      | inl heq => exact .claimed (heq.trans hc) (hret.trans hr)
      | inr hnot => exact absurd hstart hnot.1
  | wroteAddr hc ha hr =>
      have hstart : pc.Starting t := hc ▸ rfl
      cases hpc with
      | inl heq => exact .wroteAddr (heq.trans hc) (haddr.trans ha) (hret.trans hr)
      | inr hnot => exact absurd hstart hnot.1
  | wroteArg1 hc ha ho hr =>
      have hstart : pc.Starting t := hc ▸ rfl
      cases hpc with
      | inl heq =>
          exact .wroteArg1 (heq.trans hc) (haddr.trans ha) (harg.trans ho) (hret.trans hr)
      | inr hnot => exact absurd hstart hnot.1
  | returned hc ha ho hr =>
      refine .returned ?_ (haddr.trans ha) (harg.trans ho) (hret.trans hr)
      cases hpc with
      | inl heq => exact heq ▸ hc
      | inr hnot => exact hnot.2

/-- A step that is no step of a call for `t` and leaves its data alone. -/
theorem Claimed.frame (h : Claimed boot s t) (hcall : (s' t).call = (s t).call)
    (haddr : (s' t).nextAddr = (s t).nextAddr) (harg : (s' t).nextArg1 = (s t).nextArg1)
    (hret : (s' t).successes = (s t).successes)
    (hstate : (s' t).state = .stopped ↔ (s t).state = .stopped)
    (hpc : ∀ k, (s' k).pc = (s k).pc ∨ ¬ (s k).pc.Starting t ∧ ¬ (s' k).pc.Starting t) :
    Claimed boot s' t := by
  have hstart (k : Nat) : (s' k).pc.Starting t → (s k).pc.Starting t := by
    intro hk
    cases hpc k with
    | inl heq => exact heq ▸ hk
    | inr hnot => exact absurd hk hnot.2
  constructor
  · intro hnone
    obtain ⟨h0, hstopped, hidle⟩ := h.none (hcall ▸ hnone)
    exact ⟨hret.trans h0, fun hb => hstate.mpr (hstopped hb), fun k hk => hidle k (hstart k hk)⟩
  · intro c hc
    obtain ⟨hne, honly, hprogress⟩ := h.some c (hcall ▸ hc)
    exact ⟨fun hs => hne (hstate.mp hs), fun k hk => honly k (hstart k hk),
      hprogress.congr haddr harg hret (hpc c.caller)⟩

/-- A step of a hart that is not in a call, on its own data only. -/
theorem claimed_own (h : ∀ t, Claimed boot s t) {me : Nat} {f : HsmHart → HsmHart}
    (hcall : (f (s me)).call = (s me).call) (haddr : (f (s me)).nextAddr = (s me).nextAddr)
    (harg : (f (s me)).nextArg1 = (s me).nextArg1)
    (hret : (f (s me)).successes = (s me).successes)
    (hstate : (f (s me)).state = .stopped ↔ (s me).state = .stopped)
    (hpc : ∀ t, ¬ (s me).pc.Starting t ∧ ¬ (f (s me)).pc.Starting t) (t : Nat) :
    Claimed boot (change s me f) t := by
  have hsame {β : Type} {p : HsmHart → β} (hp : p (f (s me)) = p (s me)) :
      p (change s me f t) = p (s t) := by
    by_cases ht : t = me
    · rw [ht, change_self, hp]
    · rw [change_of_ne s f ht]
  refine (h t).frame (hsame hcall) (hsame haddr) (hsame harg) (hsame hret) ?_ ?_
  · by_cases ht : t = me
    · rw [ht, change_self, hstate]
    · rw [change_of_ne s f ht]
  · intro k
    by_cases hk : k = me
    · rw [hk, change_self]
      exact Or.inr (hpc t)
    · rw [change_of_ne s f hk]
      exact Or.inl rfl

/-- A change of `hartid` followed by one of `me` that moves it on to `pc`: the step
of a call. -/
structure CallStep (s : Nat → HsmHart) (me hartid : Nat) (d : HsmHart) (pc : Pc)
    (s' : Nat → HsmHart) : Prop where
  pc_me : (s' me).pc = pc
  pc_ne : ∀ k ≠ me, (s' k).pc = (s k).pc
  target : (s' hartid).call = d.call ∧ (s' hartid).nextAddr = d.nextAddr ∧
    (s' hartid).nextArg1 = d.nextArg1 ∧ (s' hartid).successes = d.successes ∧
    (s' hartid).state = d.state
  others : ∀ k ≠ hartid, (s' k).call = (s k).call ∧ (s' k).nextAddr = (s k).nextAddr ∧
    (s' k).nextArg1 = (s k).nextArg1 ∧ (s' k).successes = (s k).successes ∧
    (s' k).state = (s k).state

theorem callStep_change (s : Nat → HsmHart) (me hartid : Nat) (f : HsmHart → HsmHart) (pc : Pc)
    (ret : Option Int) (hf : ∀ d, (f d).pc = d.pc) :
    CallStep s me hartid (f (s hartid)) pc (change (change s hartid f) me (.goto pc ret)) := by
  have hgoto {β : Type} {p : HsmHart → β} (hp : ∀ d, p (d.goto pc ret) = p d) (k : Nat) :
      p (change (change s hartid f) me (.goto pc ret) k) = p (change s hartid f k) :=
    change_same _ _ _ hp
  have hcall := hgoto (p := HsmHart.call) fun _ => rfl
  have haddr := hgoto (p := HsmHart.nextAddr) fun _ => rfl
  have harg := hgoto (p := HsmHart.nextArg1) fun _ => rfl
  have hret := hgoto (p := HsmHart.successes) fun _ => rfl
  have hstate := hgoto (p := HsmHart.state) fun _ => rfl
  refine ⟨?_, ?_, ?_, ?_⟩
  · rw [change_self]
    rfl
  · intro k hk
    rw [change_of_ne _ _ hk, change_same _ _ _ hf]
  · rw [hcall, haddr, harg, hret, hstate, change_self]
    exact ⟨rfl, rfl, rfl, rfl, rfl⟩
  · intro k hk
    rw [hcall, haddr, harg, hret, hstate, change_of_ne _ _ hk]
    exact ⟨rfl, rfl, rfl, rfl, rfl⟩

/-- The step of a call leaves the starts of other harts alone. -/
theorem CallStep.claimed {me hartid : Nat} {d : HsmHart} {pc : Pc}
    (hstep : CallStep s me hartid d pc s') (h : ∀ t, Claimed boot s t)
    (hfrom : ∀ t ≠ hartid, ¬ (s me).pc.Starting t) (hto : ∀ t ≠ hartid, ¬ pc.Starting t)
    (htarget : Claimed boot s' hartid) (t : Nat) : Claimed boot s' t := by
  by_cases ht : t = hartid
  · exact ht ▸ htarget
  · obtain ⟨hcall, haddr, harg, hret, hstate⟩ := hstep.others t ht
    refine (h t).frame hcall haddr harg hret (by rw [hstate]) ?_
    intro k
    by_cases hk : k = me
    · rw [hk, hstep.pc_me]
      exact Or.inr ⟨hfrom t ht, hto t ht⟩
    · exact Or.inl (hstep.pc_ne k hk)

/-- A hart at a step of a call for `hartid` is the one that claimed its start. -/
theorem claimed_of_starting (h : Claimed boot s t) {me : Nat} (hme : (s me).pc.Starting t) :
    ∃ c, (s t).call = some c ∧ c.caller = me ∧ (s t).state ≠ .stopped ∧
      (∀ k, (s k).pc.Starting t → k = me) ∧ Progress (s me).pc t c (s t) := by
  cases hcall : (s t).call with
  | none => exact absurd hme ((h.none hcall).2.2 me)
  | some c =>
      obtain ⟨hne, honly, hprogress⟩ := h.some c hcall
      have hc := honly me hme
      subst hc
      exact ⟨c, rfl, rfl, hne, honly, hprogress⟩

/-- The next step of the call that claimed the start. -/
theorem CallStep.claimed_target {me hartid : Nat} {d : HsmHart} {pc : Pc}
    (hstep : CallStep s me hartid d pc s') (h : Claimed boot s hartid)
    (hme : (s me).pc.Starting hartid) (hcall : d.call = (s hartid).call)
    (hstate : d.state = (s hartid).state)
    (hprogress : ∀ c, Progress (s me).pc hartid c (s hartid) → Progress pc hartid c d) :
    Claimed boot s' hartid := by
  obtain ⟨c, hc, rfl, hne, honly, hp⟩ := claimed_of_starting h hme
  obtain ⟨hcall', haddr', harg', hret', hstate'⟩ := hstep.target
  have hcall'' := hcall'.trans (hcall.trans hc)
  refine ⟨fun hnone => ?_, fun c' hc' => ?_⟩
  · rw [hcall''] at hnone
    cases hnone
  · rw [hcall''] at hc'
    cases hc'
    refine ⟨by rw [hstate', hstate]; exact hne, ?_, ?_⟩
    · intro k hk
      by_cases hkme : k = c.caller
      · exact hkme
      · rw [hstep.pc_ne k hkme] at hk
        exact honly k hk
    · rw [hstep.pc_me]
      exact (hprogress c hp).congr haddr' harg' hret' (Or.inl rfl)

end Frame

section Step
variable {boot : Nat} {s : Nat → HsmHart}

/-- The start of the boot hart is not claimed by a call. -/
structure HsmInv (boot : Nat) (s : Nat → HsmHart) : Prop where
  claimed : ∀ t, Claimed boot s t
  booted : (s boot).state ≠ .stopped

theorem hsmInv_init (boot : Nat) (payload fdt : BitVec 64) :
    HsmInv boot (hsmInit boot payload fdt) := by
  refine ⟨fun t => ⟨fun _ => ⟨rfl, ?_, ?_⟩, fun c hc => nomatch hc⟩, ?_⟩
  · intro ht
    simp only [hsmInit, if_neg ht]
  · intro h
    simp only [hsmInit]
    split <;> exact id
  · simp [hsmInit]

theorem change_not_stopped {me t : Nat} {f : HsmHart → HsmHart}
    (hf : ∀ d : HsmHart, d.state ≠ .stopped → (f d).state ≠ .stopped)
    (h : (s t).state ≠ .stopped) : (change s me f t).state ≠ .stopped := by
  by_cases ht : t = me
  · rw [ht, change_self]
    exact hf _ (ht ▸ h)
  · rwa [change_of_ne _ _ ht]

/-- A call of a hart in S-mode: it returns an error at once or claims the start. -/
theorem hsmInv_hartStart (h : HsmInv boot s) {me : Nat} (hme : (s me).pc = .smode)
    (hartCount hartid : Nat) (startAddr opaque_ : BitVec 64) :
    HsmInv boot (hartStart hartCount s me hartid startAddr opaque_) := by
  have hidle (t : Nat) : ¬ (s me).pc.Starting t := by
    rw [hme]
    exact id
  have herror (ret : Int) : HsmInv boot (change s me fun d => { d with ret := some ret }) :=
    ⟨claimed_own h.claimed rfl rfl rfl rfl Iff.rfl fun t => ⟨hidle t, hidle t⟩,
      change_not_stopped (fun _ => id) h.booted⟩
  simp only [hartStart]
  split
  · exact herror _
  · split
    · exact herror _
    · exact herror _
    · next hstopped =>
      have hnone : (s hartid).call = none := by
        cases hcall : (s hartid).call with
        | none => rfl
        | some c => exact absurd hstopped ((h.claimed hartid).some c hcall).1
      obtain ⟨hret, -, hnobody⟩ := (h.claimed hartid).none hnone
      have hstep := callStep_change s me hartid
        (fun d => { d with state := .startPending, call := some ⟨me, startAddr, opaque_⟩ })
        (.writeAddr hartid startAddr opaque_) none fun _ => rfl
      refine ⟨hstep.claimed h.claimed (fun t _ => hidle t) (fun t ht => Ne.symm ht) ?_,
        change_not_stopped (fun _ => id) (change_not_stopped (fun _ _ => nofun) h.booted)⟩
      obtain ⟨hcall, -, -, hret', hstate⟩ := hstep.target
      refine ⟨fun hnot => ?_, fun c hc => ?_⟩
      · rw [hcall] at hnot
        cases hnot
      · rw [hcall] at hc
        cases hc
        refine ⟨?_, ?_, .claimed hstep.pc_me (hret'.trans hret)⟩
        · rw [hstate]
          exact nofun
        · intro k hk
          by_cases hkme : k = me
          · exact hkme
          · rw [hstep.pc_ne k hkme] at hk
            exact absurd hk (hnobody k)

/-- The next step of a call for `hartid`. -/
theorem hsmInv_callStep (h : HsmInv boot s) {me hartid : Nat} {pc : Pc} {ret : Option Int}
    {f : HsmHart → HsmHart} (hpc : ∀ d, (f d).pc = d.pc) (hstate : ∀ d, (f d).state = d.state)
    (hcall : ∀ d, (f d).call = d.call) (hfrom : ∀ t, (s me).pc.Starting t ↔ hartid = t)
    (hto : ∀ t, pc.Starting t → hartid = t)
    (hprogress : ∀ c, Progress (s me).pc hartid c (s hartid) →
      Progress pc hartid c (f (s hartid))) :
    HsmInv boot (change (change s hartid f) me (.goto pc ret)) := by
  have hstep := callStep_change s me hartid f pc ret hpc
  refine ⟨hstep.claimed h.claimed (fun t ht hs => ht ((hfrom t).mp hs).symm)
    (fun t ht hs => ht (hto t hs).symm)
    (hstep.claimed_target (h.claimed hartid) ((hfrom hartid).mpr rfl) (hcall _) (hstate _)
      hprogress), ?_⟩
  refine change_not_stopped (fun _ => id) (change_not_stopped (fun d hd => ?_) h.booted)
  rwa [hstate]

/-- A step on the way of a hart to S-mode. -/
theorem hsmInv_own (h : HsmInv boot s) {me : Nat} {f : HsmHart → HsmHart}
    (hfrom : ∀ t, ¬ (s me).pc.Starting t) (hto : ∀ t, ¬ (f (s me)).pc.Starting t)
    (hcall : (f (s me)).call = (s me).call) (haddr : (f (s me)).nextAddr = (s me).nextAddr)
    (harg : (f (s me)).nextArg1 = (s me).nextArg1)
    (hret : (f (s me)).successes = (s me).successes)
    (hstate : (f (s me)).state = .stopped ↔ (s me).state = .stopped) :
    HsmInv boot (change s me f) := by
  refine ⟨claimed_own h.claimed hcall haddr harg hret hstate fun t => ⟨hfrom t, hto t⟩, ?_⟩
  by_cases hb : boot = me
  · rw [hb, change_self]
    exact fun hs => h.booted (hb ▸ hstate.mp hs)
  · rw [change_of_ne _ _ hb]
    exact h.booted

theorem hsmInv_next (h : HsmInv boot s) (me : Nat) : HsmInv boot (hsmNext s me) := by
  simp only [hsmNext]
  split
  · next hpc =>
    split
    · exact hsmInv_own h (by rw [hpc]; exact fun _ => id) (fun _ => id) rfl rfl rfl rfl Iff.rfl
    · exact h
  · next hpc =>
    split
    · next hpending =>
      refine hsmInv_own h (by rw [hpc]; exact fun _ => id) (fun _ => id) rfl rfl rfl rfl ?_
      rw [hpending]
      exact iff_of_false nofun nofun
    · exact hsmInv_own h (by rw [hpc]; exact fun _ => id) (fun _ => id) rfl rfl rfl rfl Iff.rfl
  · next hpc =>
    exact hsmInv_own h (by rw [hpc]; exact fun _ => id) (fun _ => id) rfl rfl rfl rfl Iff.rfl
  · next hartid startAddr opaque_ hpc =>
    refine hsmInv_callStep h (fun _ => rfl) (fun _ => rfl) (fun _ => rfl)
      (by rw [hpc]; exact fun _ => Iff.rfl) (fun _ => id) fun c hc => ?_
    rw [hpc] at hc
    cases hc with
    | claimed hc hret =>
        cases hc
        exact .wroteAddr rfl rfl hret
    | wroteAddr hc => cases hc
    | wroteArg1 hc => cases hc
    | returned hc => exact absurd rfl hc
  · next hartid opaque_ hpc =>
    refine hsmInv_callStep h (fun _ => rfl) (fun _ => rfl) (fun _ => rfl)
      (by rw [hpc]; exact fun _ => Iff.rfl) (fun _ => id) fun c hc => ?_
    rw [hpc] at hc
    cases hc with
    | claimed hc => cases hc
    | wroteAddr hc haddr hret =>
        cases hc
        exact .wroteArg1 rfl haddr rfl hret
    | wroteArg1 hc => cases hc
    | returned hc => exact absurd rfl hc
  · next hartid hpc =>
    refine hsmInv_callStep h (fun _ => rfl) (fun _ => rfl) (fun _ => rfl)
      (by rw [hpc]; exact fun _ => Iff.rfl) (fun _ => False.elim) fun c hc => ?_
    rw [hpc] at hc
    cases hc with
    | claimed hc => cases hc
    | wroteAddr hc => cases hc
    | wroteArg1 hc haddr harg hret => exact .returned id haddr harg (by simp [hret])
    | returned hc => exact absurd rfl hc
  · exact h

theorem hsmInv_step (h : HsmInv boot s) (hartCount : Nat) (i : HsmStep) :
    HsmInv boot (hsmStep hartCount s i) := by
  cases i with
  | call me hartid startAddr opaque_ =>
      simp only [hsmStep]
      split
      · next hme => exact hsmInv_hartStart h hme hartCount hartid startAddr opaque_
      · exact h
  | next me => exact hsmInv_next h me
  | readArg1 me =>
      simp only [hsmStep]
      split
      · next hpc =>
        exact hsmInv_own h (by rw [hpc]; exact fun _ => id) (fun _ => id) rfl rfl rfl rfl Iff.rfl
      · exact h
  | readAddr me =>
      simp only [hsmStep]
      split
      · next hpc =>
        exact hsmInv_own h (by rw [hpc]; exact fun _ => id) (fun _ => id) rfl rfl rfl rfl Iff.rfl
      · exact h

end Step

end Plo.Sbi
