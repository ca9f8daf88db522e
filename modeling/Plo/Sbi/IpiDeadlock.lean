import Mathlib.Data.Set.Insert
import Plo.Sbi.Rfence

/-!
Harts that wait for one another. A hart in a call takes no interrupt, so its pool is
not emptied before it has made all its posts; when the pools of two such harts are
used up, each may retry on the other one for ever. It takes a post of the last free
node, or a call without a free node, while there is already such a hart.
-/
namespace Plo.Sbi

/-- The hart is in a call that has to post to another one yet. -/
def Activity.Owes (hartCount me : Nat) : Activity → Prop
  | .sending _ hartMask i | .sendingSelf _ hartMask i =>
    ∃ t, i ≤ t ∧ t < hartCount ∧ hartMask.getLsbD t = true ∧ t ≠ me
  | _ => False

/-- The mask of the free nodes without the one a post takes. -/
def restOfPool (poolMask : BitVec 16) : BitVec 16 :=
  poolMask &&& ~~~((1 : BitVec 16) <<< getFirstBit (poolMask.setWidth 64))

/-- Steps of any harts, one after the other. -/
def rfenceSteps (hartCount : Nat) (sbiHartMask : BitVec 64) : Machine → List RfenceStep → Option Machine
  | s, [] => some s
  | s, i :: steps =>
    (rfenceStep hartCount sbiHartMask s i).bind (rfenceSteps hartCount sbiHartMask · steps)

namespace Machine

/-- The hart retries on the hart `t`, which has no free node. -/
def Retries (hartCount : Nat) (s : Machine) (me t : Nat) : Prop :=
  ∃ task hartMask, s.activity me = .sending task hartMask t ∧ t < hartCount ∧
    hartMask.getLsbD t = true ∧ t ≠ me ∧ (s.harts t).poolMask = 0

/-- Harts that each retry on another one of them. -/
def Deadlocked (hartCount : Nat) (s : Machine) (harts : Set Nat) : Prop :=
  harts.Nonempty ∧ ∀ h ∈ harts, ∃ t ∈ harts, s.Retries hartCount h t

/-- The hart has no free node and cannot get one before it has posted. -/
def Stalled (hartCount : Nat) (s : Machine) (h : Nat) : Prop :=
  (s.harts h).poolMask = 0 ∧ (s.activity h).Owes hartCount h

/-- The hart a step tries to post to. -/
def postsTo (hartCount : Nat) (s : Machine) : RfenceStep → Option Nat
  | .next me =>
    match s.activity me with
    | .sending _ hartMask i =>
      if i < hartCount ∧ hartMask.getLsbD i = true ∧ i ≠ me then some i else none
    | _ => none
  | .wake _ hartid => some hartid
  | _ => none

/-- The hart a step makes a call on. -/
def callsFrom : RfenceStep → Option Nat
  | .rfence me .. | .sendIpi me .. => some me
  | _ => none

/-- A step that takes the last free node of a hart with posts to make, or makes a call on
a hart without a free node, does so where no other hart is stalled. -/
def LeavesRoom (hartCount : Nat) (s : Machine) (i : RfenceStep) : Prop :=
  (∀ h, s.postsTo hartCount i = some h → (s.activity h).Owes hartCount h →
    restOfPool (s.harts h).poolMask = 0 → ∀ t, t ≠ h → ¬s.Stalled hartCount t) ∧
  ∀ h, callsFrom i = some h → (s.harts h).poolMask = 0 → ∀ t, t ≠ h → ¬s.Stalled hartCount t

section
variable {hartCount me : Nat} {s s' : Machine}

/-- A post finds no free node, or takes one. -/
theorem send_cases {hart hart' : Hart TaskHandler (Option Nat)} {task : Task} {ret : Int}
    (h : hart.send task = some (hart', ret)) :
    (hart.poolMask = 0 ∧ hart' = hart ∧ ret = SBI_IPI_RETRY) ∨
      (hart.poolMask ≠ 0 ∧ hart'.poolMask = restOfPool hart.poolMask ∧ ret = SBI_SUCCESS) := by
  simp only [Hart.send] at h
  split at h
  · rename_i hzero
    cases h
    exact Or.inl ⟨hzero, rfl, rfl⟩
  · rename_i hne
    split at h
    · simp only [Option.bind_eq_bind, Option.bind_some, Option.bind_eq_some_iff] at h
      obtain ⟨links, -, h⟩ := h
      cases h
      exact Or.inr ⟨hne, rfl, rfl⟩
    · cases h

/-- What a step can do to the harts: it concerns the hart `me` alone, or it posts to
another one as well. -/
inductive Moved (hartCount : Nat) (s s' : Machine) (i : RfenceStep) : Prop
  | quiet (hharts : s'.harts = s.harts) (me : Nat)
      (hothers : ∀ h, h ≠ me → s'.activity h = s.activity h)
      (howes : (s'.activity me).Owes hartCount me → (s.activity me).Owes hartCount me)
      (hretries : ∀ t, s.Retries hartCount me t → s'.activity me = s.activity me)
  | called (hharts : s'.harts = s.harts) (me : Nat) (hcalls : callsFrom i = some me)
      (hidle : s.activity me = .idle) (hothers : ∀ h, h ≠ me → s'.activity h = s.activity h)
  | took (me : Nat) (hharts : ∀ h, h ≠ me → s'.harts h = s.harts h)
      (hothers : ∀ h, h ≠ me → s'.activity h = s.activity h)
      (hbefore : s.activity me = .handling) (e : Execution) (hafter : s'.activity me = .executing e)
  | posted (t : Nat) (hposts : s.postsTo hartCount i = some t)
      (hharts : ∀ h, h ≠ t → s'.harts h = s.harts h) (hfree : (s.harts t).poolMask ≠ 0)
      (hpool : (s'.harts t).poolMask = restOfPool (s.harts t).poolMask) (me : Nat)
      (hothers : ∀ h, h ≠ me → s'.activity h = s.activity h)
      (howes : (s'.activity me).Owes hartCount me → (s.activity me).Owes hartCount me)
      (hretries : ∀ t, s.Retries hartCount me t → s'.activity me = s.activity me)

theorem quiet_goto {a : Activity} (i : RfenceStep) (hharts : s'.harts = s.harts)
    (hactivity : s'.activity = Function.update s.activity me a)
    (howes : a.Owes hartCount me → (s.activity me).Owes hartCount me)
    (hretries : ∀ t, s.Retries hartCount me t → a = s.activity me) : Moved hartCount s s' i := by
  refine .quiet hharts me ?_ ?_ ?_
  · intro h hh
    rw [hactivity, Function.update_of_ne hh]
  · rw [hactivity, Function.update_self]
    exact howes
  · rw [hactivity, Function.update_self]
    exact hretries

theorem posted_goto {a : Activity} {i : RfenceStep} {t : Nat}
    {hart : Hart TaskHandler (Option Nat)} (hposts : s.postsTo hartCount i = some t)
    (hfree : (s.harts t).poolMask ≠ 0) (hpool : hart.poolMask = restOfPool (s.harts t).poolMask)
    (hharts : s'.harts = Function.update s.harts t hart)
    (hactivity : s'.activity = Function.update s.activity me a)
    (howes : a.Owes hartCount me → (s.activity me).Owes hartCount me)
    (hretries : ∀ t, s.Retries hartCount me t → a = s.activity me) : Moved hartCount s s' i := by
  refine .posted t hposts ?_ hfree ?_ me ?_ ?_ ?_
  · intro h hh
    rw [hharts, Function.update_of_ne hh]
  · rw [hharts, Function.update_self, hpool]
  · intro h hh
    rw [hactivity, Function.update_of_ne hh]
  · rw [hactivity, Function.update_self]
    exact howes
  · rw [hactivity, Function.update_self]
    exact hretries

theorem quiet_refl (i : RfenceStep) : Moved hartCount s s i :=
  .quiet rfl 0 (fun _ _ => rfl) id (fun _ _ => rfl)

theorem not_retries {a : Activity} (ha : s.activity me = a)
    (hsend : ∀ task hartMask i, a ≠ .sending task hartMask i) (t : Nat) :
    ¬s.Retries hartCount me t := by
  rintro ⟨task, hartMask, hactivity, -⟩
  exact hsend task hartMask t (ha.symm.trans hactivity)

/-- A call leaves the hart where it was, or about to post. -/
theorem moved_ipiSendMany {i : RfenceStep} (hcalls : callsFrom i = some me)
    (hidle : s.activity me = .idle) {s₀ : Machine} (hharts : s₀.harts = s.harts)
    (hactivity : s₀.activity = s.activity) (sbiHartMask hartMask hartMaskBase : BitVec 64)
    (handler : TaskHandler) (data : Option Nat) :
    Moved hartCount s
      (s₀.ipiSendMany hartCount sbiHartMask me hartMask hartMaskBase handler data) i := by
  refine .called ?_ me hcalls hidle ?_
  · simp only [ipiSendMany]
    split
    · exact hharts
    · split
      · exact hharts
      · exact hharts
  · intro h hh
    simp only [ipiSendMany]
    split
    · exact congrFun hactivity h
    · split
      · exact congrFun hactivity h
      · change Function.update s₀.activity me _ h = _
        rw [Function.update_of_ne hh, hactivity]

theorem moved_ecallRfence {i : RfenceStep} (hcalls : callsFrom i = some me)
    (hidle : s.activity me = .idle) (sbiHartMask a0 a1 a2 a3 a4 : BitVec 64) (fid : Int) :
    Moved hartCount s (s.ecallRfence hartCount sbiHartMask me a0 a1 a2 a3 a4 fid) i := by
  simp only [ecallRfence]
  split
  · refine moved_ipiSendMany hcalls hidle ?_ ?_ _ _ _ _ _ <;> rfl
  · refine moved_ipiSendMany hcalls hidle ?_ ?_ _ _ _ _ _ <;> rfl
  · refine moved_ipiSendMany hcalls hidle ?_ ?_ _ _ _ _ _ <;> rfl
  · exact .called rfl me hcalls hidle fun _ _ => rfl

/-- Posts that are left stay so with the next hart. -/
theorem owes_succ {task task' : Task} {hartMask : BitVec 64} {i : Nat}
    (h : (Activity.sending task hartMask (i + 1)).Owes hartCount me) :
    (Activity.sending task' hartMask i).Owes hartCount me := by
  obtain ⟨t, hle, hrest⟩ := h
  exact ⟨t, by omega, hrest⟩

theorem moved_sendNext {task : Task} {hartMask : BitVec 64} {i : Nat}
    (hme : s.activity me = .sending task hartMask i)
    (h : s.sendNext hartCount me task hartMask i = some s') :
    Moved hartCount s s' (.next me) := by
  have hretry : ∀ t, s.Retries hartCount me t → t = i ∧ i < hartCount ∧
      hartMask.getLsbD i = true ∧ i ≠ me ∧ (s.harts i).poolMask = 0 := by
    rintro t ⟨task', hartMask', hactivity, hrest⟩
    cases hme.symm.trans hactivity
    exact ⟨rfl, hrest⟩
  simp only [sendNext] at h
  split at h
  · rename_i hi
    split at h
    · rename_i hbit
      split at h
      · rename_i hself
        cases h
        refine quiet_goto _ rfl rfl ?_ ?_
        · rw [hme]
          exact id
        · intro t ht
          exact absurd hself (hretry t ht).2.2.2.1
      · rename_i hself
        split at h
        · cases h
          exact quiet_refl _
        · simp only [Option.bind_eq_bind, Option.bind_eq_some_iff] at h
          obtain ⟨⟨hart, ret⟩, hsend, h⟩ := h
          rcases send_cases hsend with ⟨hzero, -, rfl⟩ | ⟨hne, hpool, rfl⟩
          · simp only [if_true, Option.some.injEq] at h
            subst h
            exact quiet_refl _
          · have hret : ¬SBI_SUCCESS = SBI_IPI_RETRY := by decide
            have hneg : ¬SBI_SUCCESS < 0 := by decide
            simp only [if_neg hret, if_neg hneg, Option.some.injEq] at h
            subst h
            have hposts : s.postsTo hartCount (.next me) = some i := by
              simp [postsTo, hme, hi, hbit, hself]
            refine posted_goto hposts hne hpool rfl rfl ?_ ?_
            · rw [hme]
              exact owes_succ
            · intro t ht
              exact absurd (hretry t ht).2.2.2.2 hne
    · rename_i hbit
      cases h
      refine quiet_goto _ rfl rfl ?_ ?_
      · rw [hme]
        exact owes_succ
      · intro t ht
        exact absurd (hretry t ht).2.2.1 hbit
  · rename_i hi
    cases h
    refine quiet_goto _ rfl rfl False.elim ?_
    intro t ht
    exact absurd (hretry t ht).2.1 hi

theorem moved_sendingSelf {e : Execution} {hartMask : BitVec 64} {i : Nat}
    (hme : s.activity me = .sendingSelf e hartMask i) (h : s.next hartCount me = some s') :
    Moved hartCount s s' (.next me) := by
  have hnot : ∀ t, ¬s.Retries hartCount me t := not_retries hme nofun
  simp only [next, hme] at h
  split at h
  · cases h
    refine quiet_goto _ rfl rfl ?_ fun t ht => absurd ht (hnot t)
    rw [hme]
    rintro ⟨t, hle, hrest⟩
    exact ⟨t, by omega, hrest⟩
  · simp only [Option.bind_eq_bind, Option.bind_eq_some_iff] at h
    obtain ⟨e', -, h⟩ := h
    cases h
    refine quiet_goto _ rfl rfl ?_ fun t ht => absurd ht (hnot t)
    rw [hme]
    exact id

theorem moved_next (h : s.next hartCount me = some s') : Moved hartCount s s' (.next me) := by
  cases hme : s.activity me with
  | idle =>
      simp only [next, hme, Option.some.injEq] at h
      split at h
      · subst h
        exact quiet_goto _ rfl rfl False.elim fun t ht => absurd ht (not_retries hme nofun t)
      · subst h
        exact quiet_refl _
  | sending task hartMask i =>
      simp only [next, hme] at h
      exact moved_sendNext hme h
  | sendingSelf e hartMask i => exact moved_sendingSelf hme h
  | entered =>
      simp only [next, hme, Option.some.injEq] at h
      subst h
      exact quiet_goto _ rfl rfl False.elim fun t ht => absurd ht (not_retries hme nofun t)
  | handling =>
      simp only [next, hme, handlerNext] at h
      split at h
      · cases h
        exact quiet_goto _ rfl rfl False.elim fun t ht => absurd ht (not_retries hme nofun t)
      · simp only [Option.bind_eq_bind, Option.bind_eq_some_iff] at h
        obtain ⟨⟨hart, task⟩, -, h⟩ := h
        cases h
        refine .took me ?_ ?_ hme (.start task) (Function.update_self _ _ _)
        · exact fun t ht => Function.update_of_ne ht _ _
        · exact fun t ht => Function.update_of_ne ht _ _
  | executing e =>
      simp only [next, hme] at h
      split at h
      · cases h
        exact quiet_goto _ rfl rfl False.elim fun t ht => absurd ht (not_retries hme nofun t)
      · simp only [Option.bind_eq_bind, Option.bind_eq_some_iff] at h
        obtain ⟨e', -, h⟩ := h
        cases h
        exact quiet_goto _ rfl rfl False.elim fun t ht => absurd ht (not_retries hme nofun t)

theorem moved_wake {hartid : Nat} (h : s.wake me hartid = some s') :
    Moved hartCount s s' (.wake me hartid) := by
  simp only [wake] at h
  split at h
  · cases h
    exact quiet_refl _
  · simp only [Option.bind_eq_bind, Option.bind_eq_some_iff] at h
    obtain ⟨⟨hart, ret⟩, hsend, h⟩ := h
    rcases send_cases hsend with ⟨-, -, rfl⟩ | ⟨hne, hpool, rfl⟩
    · have hret : ¬SBI_IPI_RETRY = SBI_SUCCESS := by decide
      simp only [if_neg hret, Option.some.injEq] at h
      subst h
      exact .quiet rfl 0 (fun _ _ => rfl) id (fun _ _ => rfl)
    · simp only [if_true, Option.some.injEq] at h
      subst h
      refine .posted hartid rfl ?_ hne ?_ 0 (fun _ _ => rfl) id (fun _ _ => rfl)
      · exact fun t ht => Function.update_of_ne ht _ _
      · change (Function.update s.harts hartid hart hartid).poolMask = _
        rw [Function.update_self, hpool]

theorem moved_step {sbiHartMask : BitVec 64} {i : RfenceStep}
    (h : rfenceStep hartCount sbiHartMask s i = some s') : Moved hartCount s s' i := by
  have hidle : ∀ {me : Nat}, (s.activity me).isIdle = true → s.activity me = .idle := by
    intro me hidle
    cases hme : s.activity me with
    | idle => rfl
    | _ => simp [hme, Activity.isIdle] at hidle
  cases i with
  | rfence me a0 a1 a2 a3 a4 fid =>
      simp only [rfenceStep, Option.some.injEq] at h
      split at h
      · rename_i hme
        subst h
        exact moved_ecallRfence rfl (hidle hme) _ _ _ _ _ _ _
      · subst h
        exact quiet_refl _
  | sendIpi me a0 a1 =>
      simp only [rfenceStep, Option.some.injEq] at h
      split at h
      · rename_i hme
        subst h
        exact moved_ipiSendMany rfl (hidle hme) rfl rfl _ _ _ _ _
      · subst h
        exact quiet_refl _
  | wake me hartid =>
      simp only [rfenceStep] at h
      split at h
      · exact moved_wake h
      · cases h
        exact quiet_refl _
  | reuse me info =>
      simp only [rfenceStep, Option.some.injEq] at h
      split at h
      · subst h
        exact quiet_refl _
      · subst h
        exact .quiet rfl 0 (fun _ _ => rfl) id (fun _ _ => rfl)
  | next me => exact moved_next h

/-- A hart is stalled by a post of its last free node or by its own call. -/
theorem Moved.stalled {i : RfenceStep} (hmoved : Moved hartCount s s' i) {h : Nat}
    (hstalled : s'.Stalled hartCount h) :
    s.Stalled hartCount h ∨
      (s.postsTo hartCount i = some h ∧ (s.activity h).Owes hartCount h ∧
        restOfPool (s.harts h).poolMask = 0) ∨
      (callsFrom i = some h ∧ (s.harts h).poolMask = 0) := by
  obtain ⟨hzero, howes⟩ := hstalled
  cases hmoved with
  | quiet hharts me hothers howes' _ =>
      rw [hharts] at hzero
      refine Or.inl ⟨hzero, ?_⟩
      by_cases hh : h = me
      · subst hh
        exact howes' howes
      · rwa [hothers h hh] at howes
  | called hharts me hcalls hidle hothers =>
      rw [hharts] at hzero
      by_cases hh : h = me
      · subst hh
        exact Or.inr (Or.inr ⟨hcalls, hzero⟩)
      · rw [hothers h hh] at howes
        exact Or.inl ⟨hzero, howes⟩
  | took me hharts hothers _ e hafter =>
      by_cases hh : h = me
      · subst hh
        rw [hafter] at howes
        exact howes.elim
      · rw [hothers h hh] at howes
        rw [hharts h hh] at hzero
        exact Or.inl ⟨hzero, howes⟩
  | posted t hposts hharts hfree hpool me hothers howes' _ =>
      have howes : (s.activity h).Owes hartCount h := by
        by_cases hh : h = me
        · subst hh
          exact howes' howes
        · rwa [hothers h hh] at howes
      by_cases hh : h = t
      · subst hh
        rw [hpool] at hzero
        exact Or.inr (Or.inl ⟨hposts, howes, hzero⟩)
      · rw [hharts h hh] at hzero
        exact Or.inl ⟨hzero, howes⟩

/-- Harts that retry on one another go on whatever any hart does. -/
theorem Deadlocked.step {sbiHartMask : BitVec 64} {i : RfenceStep} {harts : Set Nat}
    (hdead : s.Deadlocked hartCount harts)
    (hstep : rfenceStep hartCount sbiHartMask s i = some s') : s'.Deadlocked hartCount harts := by
  have hkeeps : ∀ h ∈ harts, s'.activity h = s.activity h ∧
      ((s.harts h).poolMask = 0 → (s'.harts h).poolMask = 0) := by
    intro h hh
    obtain ⟨t, -, hretries⟩ := hdead.2 h hh
    obtain ⟨task, hartMask, hsending, -⟩ := id hretries
    cases moved_step hstep with
    | quiet hharts me hothers _ hretries' =>
        rw [hharts]
        refine ⟨?_, id⟩
        by_cases hme : h = me
        · subst hme
          exact hretries' t hretries
        · exact hothers h hme
    | called hharts me _ hidle hothers =>
        rw [hharts]
        refine ⟨?_, id⟩
        by_cases hme : h = me
        · subst hme
          cases hsending.symm.trans hidle
        · exact hothers h hme
    | took me hharts hothers hbefore _ _ =>
        by_cases hme : h = me
        · subst hme
          cases hsending.symm.trans hbefore
        · rw [hharts h hme]
          exact ⟨hothers h hme, id⟩
    | posted u _ hharts hfree _ me hothers _ hretries' =>
        refine ⟨?_, ?_⟩
        · by_cases hme : h = me
          · subst hme
            exact hretries' t hretries
          · exact hothers h hme
        · intro hzero
          by_cases hu : h = u
          · subst hu
            exact absurd hzero hfree
          · rwa [hharts h hu]
  refine ⟨hdead.1, fun h hh => ?_⟩
  obtain ⟨t, ht, task, hartMask, hsending, hlt, hbit, hne, hzero⟩ := hdead.2 h hh
  exact ⟨t, ht, task, hartMask, (hkeeps h hh).1.trans hsending, hlt, hbit, hne,
    (hkeeps t ht).2 hzero⟩

theorem Deadlocked.steps {sbiHartMask : BitVec 64} {harts : Set Nat} (steps : List RfenceStep)
    (hdead : s.Deadlocked hartCount harts)
    (hsteps : rfenceSteps hartCount sbiHartMask s steps = some s') :
    s'.Deadlocked hartCount harts := by
  induction steps generalizing s with
  | nil =>
      cases hsteps
      exact hdead
  | cons i steps ih =>
      obtain ⟨s₁, hstep, hrest⟩ := Option.bind_eq_some_iff.mp hsteps
      exact ih (hdead.step hstep) hrest

/-- At most one hart is stalled. -/
def StallsOnce (hartCount : Nat) (s : Machine) : Prop :=
  ∀ h t, s.Stalled hartCount h → s.Stalled hartCount t → h = t

theorem StallsOnce.step (hs : s.StallsOnce hartCount) {i : RfenceStep}
    (hroom : s.LeavesRoom hartCount i) (hmoved : Moved hartCount s s' i) :
    s'.StallsOnce hartCount := by
  -- a hart that the step stalls is alone
  have halone : ∀ h t, (s.postsTo hartCount i = some h ∧ (s.activity h).Owes hartCount h ∧
      restOfPool (s.harts h).poolMask = 0) ∨ (callsFrom i = some h ∧ (s.harts h).poolMask = 0) →
      s'.Stalled hartCount t → h = t := by
    intro h t hnew ht
    by_contra hne
    have hothers : ¬s.Stalled hartCount t := by
      cases hnew with
      | inl hpost => exact hroom.1 h hpost.1 hpost.2.1 hpost.2.2 t (Ne.symm hne)
      | inr hcall => exact hroom.2 h hcall.1 hcall.2 t (Ne.symm hne)
    have hone : ∀ {h t : Nat}, s.postsTo hartCount i = some h → callsFrom i = some t → False := by
      intro h t hpost hcall
      cases i <;> simp [postsTo, callsFrom] at hpost hcall
    rcases hmoved.stalled ht with hold | hpost | hcall
    · exact hothers hold
    · cases hnew with
      | inl hpost' => exact hne (Option.some.inj (hpost'.1.symm.trans hpost.1))
      | inr hcall' => exact hone hpost.1 hcall'.1
    · cases hnew with
      | inl hpost' => exact hone hpost'.1 hcall.1
      | inr hcall' => exact hne (Option.some.inj (hcall'.1.symm.trans hcall.1))
  intro h t hh ht
  cases hmoved.stalled hh with
  | inr hnew => exact halone h t hnew ht
  | inl hold =>
      cases hmoved.stalled ht with
      | inr hnew => exact (halone t h hnew hh).symm
      | inl hold' => exact hs h t hold hold'

/-- Two harts of a set that retry on one another are stalled. -/
theorem StallsOnce.not_deadlocked (hs : s.StallsOnce hartCount) (harts : Set Nat) :
    ¬s.Deadlocked hartCount harts := by
  rintro ⟨⟨h, hh⟩, hall⟩
  have hstalled : ∀ {h t : Nat}, t ∈ harts → s.Retries hartCount h t → s.Stalled hartCount t := by
    rintro h t ht ⟨_, _, _, _, _, _, hzero⟩
    obtain ⟨u, hu, task, hartMask, hsending, hlt, hbit, hne, -⟩ := hall t ht
    refine ⟨hzero, ?_⟩
    rw [hsending]
    exact ⟨u, le_rfl, hlt, hbit, hne⟩
  obtain ⟨t, ht, hretries⟩ := hall h hh
  obtain ⟨u, hu, hretries'⟩ := hall t ht
  obtain ⟨_, _, _, _, _, hne, _⟩ := id hretries'
  exact hne (hs u t (hstalled hu hretries') (hstalled ht hretries))

end
end Machine

/-- States reached by steps that leave room; `none` stands for a failed one. -/
def RoomyReachable (hartCount : Nat) (sbiHartMask : BitVec 64)
    (pools : Nat → Fin MAX_TASK_COUNT → Task) (info : Nat → SfenceVmaInfo) :
    Option Machine → Prop :=
  Reachable (fun s i => s.bind (rfenceStep hartCount sbiHartMask · i))
    (fun s i => ∀ m, s = some m → m.LeavesRoom hartCount i) (some (Machine.init pools info))

/-- Whatever the number of harts and the order of their steps, no harts retry on one
another for ever as long as no hart is stalled while another one is. -/
theorem roomy_runs_do_not_deadlock (hartCount : Nat) (sbiHartMask : BitVec 64)
    (pools : Nat → Fin MAX_TASK_COUNT → Task) (info : Nat → SfenceVmaInfo) (s : Machine)
    (hreach : RoomyReachable hartCount sbiHartMask pools info (some s)) (harts : Set Nat) :
    ¬s.Deadlocked hartCount harts := by
  have honce : ∀ m, some s = some m → m.StallsOnce hartCount := by
    refine hreach.invariant (I := fun state => ∀ m, state = some m → m.StallsOnce hartCount) ?_ ?_
    · rintro m ⟨⟩ h t ⟨-, howes⟩ -
      exact howes.elim
    · intro state i hs hi m hm
      obtain ⟨m₀, rfl, hm⟩ := Option.bind_eq_some_iff.mp hm
      exact (hs m₀ rfl).step (hi m₀ rfl) (Machine.moved_step hm)
  exact (honce s rfl).not_deadlocked harts

/-- The machine after `sbi_ipiInit`, with all that was left open there zero. -/
def zeroMachine : Machine := .init (fun _ _ => ⟨0, none, none⟩) fun _ => ⟨0, 0, 0⟩

theorem roomy_runs_do_not_deadlock_one :
    ∃ s, rfenceSteps 3 7 zeroMachine [.rfence 0 2 0 0 0 0 0, .next 0, .next 0] = some s ∧
      (s.harts 1).poolMask = 0xfffe ∧ ¬s.Deadlocked 3 {0, 1} := by
  have hstart : RoomyReachable 3 7 (fun _ _ => ⟨0, none, none⟩) (fun _ => ⟨0, 0, 0⟩)
      (some zeroMachine) := .init
  have hcalled : RoomyReachable 3 7 _ _ _ :=
    .step (i := .rfence 0 2 0 0 0 0 0) hstart fun m hm => by
      cases hm
      refine ⟨nofun, fun h hc hzero => ?_⟩
      cases hc
      exact absurd hzero (by decide)
  have hskipped : RoomyReachable 3 7 _ _ _ :=
    .step (i := .next 0) hcalled fun m hm => by
      cases hm
      exact ⟨nofun, nofun⟩
  have hposted : RoomyReachable 3 7 _ _ _ :=
    .step (i := .next 0) hskipped fun m hm => by
      cases hm
      refine ⟨fun h hp howes hrest => ?_, nofun⟩
      cases hp
      exact absurd hrest (by decide)
  exact ⟨_, rfl, by decide, roomy_runs_do_not_deadlock 3 7 _ _ _ hposted {0, 1}⟩

/-- Hart 0 and hart 1 make a call for one another. Before their first posts hart 2 makes
sixteen calls for both. -/
def stallingRun : List RfenceStep :=
  [.rfence 0 2 0 0 0 0 0, .rfence 1 1 0 0 0 0 0] ++
    (List.replicate 16
      [.rfence 2 3 0 0 0 0 0, .next 2, .next 2, .next 2, .next 2]).flatten ++ [.next 0]

/-- The hart that a hart in a call is about to post to, and its mask. -/
def Activity.target : Activity → Option (BitVec 64 × Nat)
  | .sending _ hartMask i => some (hartMask, i)
  | _ => none

theorem sending_of_target {a : Activity} {hartMask : BitVec 64} {i : Nat}
    (h : a.target = some (hartMask, i)) : ∃ task, a = .sending task hartMask i := by
  cases a with
  | sending task hartMask' i' =>
      cases h
      exact ⟨task, rfl⟩
  | _ => cases h

theorem stallingRun_deadlocks :
    ∃ s, rfenceSteps 3 7 zeroMachine stallingRun = some s ∧ s.Deadlocked 3 {0, 1} ∧
      ∀ steps s', rfenceSteps 3 7 s steps = some s' → s'.Deadlocked 3 {0, 1} := by
  have hends : ((rfenceSteps 3 7 zeroMachine stallingRun).map fun s =>
      (((s.harts 0).poolMask, (s.activity 0).target), (s.harts 1).poolMask,
        (s.activity 1).target)) = some ((0, some (2, 1)), 0, some (1, 0)) := by
    decide +kernel
  obtain ⟨s, hs, hfacts⟩ := Option.map_eq_some_iff.mp hends
  simp only [Prod.mk.injEq] at hfacts
  obtain ⟨⟨hpool₀, htarget₀⟩, hpool₁, htarget₁⟩ := hfacts
  obtain ⟨task₀, hact₀⟩ := sending_of_target htarget₀
  obtain ⟨task₁, hact₁⟩ := sending_of_target htarget₁
  have hdead : s.Deadlocked 3 {0, 1} := by
    refine ⟨⟨0, by simp⟩, ?_⟩
    rintro h (rfl | rfl)
    · exact ⟨1, by simp, task₀, 2, hact₀, by decide, by decide, by decide, hpool₁⟩
    · exact ⟨0, by simp, task₁, 1, hact₁, by decide, by decide, by decide, hpool₀⟩
  exact ⟨s, hs, hdead, fun steps s' => hdead.steps steps⟩

end Plo.Sbi
