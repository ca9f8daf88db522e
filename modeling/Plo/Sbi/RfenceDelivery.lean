import Plo.Sbi.RfenceRuns

/-!
Whether a remote fence is executed as it was asked for. A call does not wait for the
harts it has posted to, so its block is overwritten by the next call of the hart, or
by anything else that uses its stack, while tasks still point to it. In runs in which
that does not happen, the harts of the mask execute the fence of the call.
-/
namespace Plo.Sbi
namespace Machine

section Step
variable {hartCount me : Nat} {s : Machine}

theorem Sends.advance {task : Task} {hartMask : BitVec 64} {i : Nat} {c : Call}
    (h : s.Sends me task hartMask i c) (hi : hartMask.getLsbD i = true → s.Served i task.number) :
    s.Sends me task hartMask (i + 1) c := by
  refine ⟨h.genuine, h.own, h.hartMask_eq, fun t ht hbit => ?_⟩
  by_cases heq : t = i
  · subst heq
    exact hi hbit
  · exact h.served t (by omega) hbit

/-- A turn of the loop of a call. -/
theorem follows_sendNext (h : s.Sound hartCount) {task : Task} {hartMask : BitVec 64} {i : Nat}
    (hme : s.activity me = .sending task hartMask i) :
    ∃ s', s.sendNext hartCount me task hartMask i = some s' ∧ Follows hartCount s s' := by
  have hdoing := h.doing me
  rw [hme] at hdoing
  have hout : (s.activity me).inHandler = false := by rw [hme]; rfl
  cases hdoing with
  | @sending _ _ _ c hsends =>
      simp only [sendNext]
      split
      · split
        · next hbit =>
          split
          · next hi =>
            subst hi
            have hpart := partway_start hsends.genuine.points.handler
            exact ⟨_, rfl, follows_goto_of_not_inHandler h (.sendingSelf hsends hpart) hout⟩
          · split
            · exact ⟨s, rfl, h, .refl s⟩
            · obtain ⟨xs, hlinked⟩ := h.linked i
              cases send_holds hlinked task with
              | inl hretry =>
                  rw [hretry]
                  exact ⟨s, rfl, h, .refl s⟩
              | inr haccepted =>
                  obtain ⟨hart, xs', hsend, hlinked', hholds⟩ := haccepted
                  obtain ⟨hposted, hserved⟩ := follows_posted h hsends.genuine hlinked' hholds
                  rw [hsend]
                  refine ⟨_, rfl, hposted.trans
                    (follows_goto_of_not_inHandler hposted.sound (.sending (c := c) ?_) hout)⟩
                  exact (hsends.later hposted.later rfl).advance fun _ => hserved
        · next hbit =>
          refine ⟨_, rfl, follows_goto_of_not_inHandler h (.sending (c := c) ?_) hout⟩
          exact hsends.advance fun hset => absurd hset hbit
      · next hi =>
        refine ⟨_, rfl, ?_⟩
        have hreturn : Follows hartCount s (s.return_ task.number SBI_SUCCESS) := by
          refine follows_return h fun _ => ⟨c, hsends.genuine.call, fun t ht hbit => ?_⟩
          exact hsends.served t (by omega) (hsends.hartMask_eq ▸ hbit)
        exact hreturn.trans (follows_goto_of_not_inHandler hreturn.sound .idle hout)

/-- A step of a handler that has not returned. -/
theorem next_executing (h : s.Sound hartCount) {e : Execution} {c : Call}
    (hme : s.activity me = .executing e) (hgenuine : s.Genuine e.task c) (hpart : Partway c e)
    (hpoint : e.point ≠ none) :
    ∃ e', s.next hartCount me = some (s.goto me (.executing e')) ∧
      Follows hartCount s (s.goto me (.executing e')) ∧ s.Genuine e'.task c ∧ Partway c e' ∧
      e'.left c < e.left c := by
  obtain ⟨point, hpoint'⟩ := Option.ne_none_iff_exists'.mp hpoint
  obtain ⟨e', hnext, htask, hpart', hleft⟩ := next_partway hgenuine.points hpart hpoint
  have hgenuine' : s.Genuine e'.task c := htask ▸ hgenuine
  refine ⟨e', ?_, ?_, hgenuine', hpart', hleft⟩
  · simp only [next, hme, hpoint', hnext, Option.bind_eq_bind, Option.bind_some]
  · refine follows_goto h (.executing hgenuine' hpart') (fun e₀ he₀ => ?_) fun _ => Or.inl rfl
    rw [hme] at he₀
    cases he₀
    exact Or.inr ⟨e', rfl, by rw [htask]⟩

/-- The handler of a task has returned. -/
theorem next_executed (h : s.Sound hartCount) {e : Execution} {c : Call}
    (hme : s.activity me = .executing e) (hgenuine : s.Genuine e.task c) (hpart : Partway c e)
    (hpoint : e.point = none) :
    s.next hartCount me = some ((s.record ⟨me, e.task.number, e.issued⟩).goto me .handling) ∧
      Follows hartCount s ((s.record ⟨me, e.task.number, e.issued⟩).goto me .handling) := by
  have hissued := hpart.issued_eq hpoint
  refine ⟨by simp only [next, hme, hpoint], ?_⟩
  have hrecord := follows_record (x := ⟨me, e.task.number, e.issued⟩) h hgenuine.call hissued
  refine hrecord.trans (follows_goto hrecord.sound .handling (fun e₀ he₀ => ?_) fun _ => Or.inl rfl)
  rw [show (s.record _).activity me = s.activity me from rfl, hme] at he₀
  cases he₀
  exact Or.inl ⟨_, List.mem_append_right _ (List.mem_singleton_self _), rfl, rfl⟩

/-- A turn of the loop over the tasks. -/
theorem next_handling (h : s.Sound hartCount) (hme : s.activity me = .handling)
    {xs : List (Fin MAX_TASK_COUNT)} (hlinked : Linked (s.harts me) xs) :
    (s.next hartCount me = some (s.goto me .idle) ∧ Follows hartCount s (s.goto me .idle) ∧
        ∀ task, ¬ (s.harts me).Holds task) ∨
      ∃ hart task xs', s.next hartCount me = some (s.took me hart task) ∧
        Follows hartCount s (s.took me hart task) ∧ Linked hart xs' ∧ xs.length = xs'.length + 1 := by
  cases htasks : (s.harts me).links.tasks with
  | none =>
      have hnone := not_holds hlinked htasks
      refine Or.inl ⟨by simp only [next, hme, handlerNext, htasks], ?_, hnone⟩
      refine follows_goto h .idle (fun e he => ?_) fun _ => Or.inr hnone
      rw [hme] at he
      cases he
  | some node =>
      obtain ⟨hart, task, xs', htake, hlinked', hlen, hholds⟩ := take_holds hlinked htasks
      refine Or.inr ⟨hart, task, xs', ?_, follows_took h hme hlinked' hholds, hlinked', hlen⟩
      simp only [next, hme, handlerNext, htasks, htake, Option.bind_eq_bind, Option.bind_some]

/-- A call runs the task for its own hart. -/
theorem follows_sendingSelf (h : s.Sound hartCount) {e : Execution} {hartMask : BitVec 64} {i : Nat}
    (hme : s.activity me = .sendingSelf e hartMask i) :
    ∃ s', s.next hartCount me = some s' ∧ Follows hartCount s s' := by
  have hdoing := h.doing me
  have hout : (s.activity me).inHandler = false := by rw [hme]; rfl
  rw [hme] at hdoing
  cases hdoing with
  | @sendingSelf _ _ c hsends hpart =>
      cases hpoint : e.point with
      | some point =>
          obtain ⟨e', hnext, htask, hpart', -⟩ :=
            next_partway hsends.genuine.points hpart (by rw [hpoint]; exact nofun)
          refine ⟨s.goto me (.sendingSelf e' hartMask me), ?_, ?_⟩
          · simp only [next, hme, hpoint, hnext, Option.bind_eq_bind, Option.bind_some]
          · exact follows_goto_of_not_inHandler h (.sendingSelf (htask ▸ hsends) hpart') hout
      | none =>
          have hrecord := follows_record (x := ⟨me, e.task.number, e.issued⟩) h
            hsends.genuine.call (hpart.issued_eq hpoint)
          refine ⟨(s.record ⟨me, e.task.number, e.issued⟩).goto me (.sending e.task hartMask (me + 1)),
            ?_, hrecord.trans (follows_goto_of_not_inHandler hrecord.sound (.sending (c := c) ?_) hout)⟩
          · simp only [next, hme, hpoint]
          · refine (hsends.later hrecord.later rfl).advance fun _ => ?_
            exact .executed (List.mem_append_right _ (List.mem_singleton_self _)) rfl rfl

theorem follows_next (h : s.Sound hartCount) (me : Nat) :
    ∃ s', s.next hartCount me = some s' ∧ Follows hartCount s s' := by
  cases hme : s.activity me with
  | idle =>
      simp only [next, hme]
      by_cases hmsip : s.msip me = true
      · rw [if_pos hmsip]
        have hout : (s.activity me).inHandler = false := by rw [hme]; rfl
        have hgoto := follows_goto_of_not_inHandler h .entered hout
        have hin : ((s.goto me .entered).activity me).inHandler = true := by
          rw [show (s.goto me .entered).activity me = .entered from Function.update_self _ _ _]
          rfl
        exact ⟨_, rfl, hgoto.trans (follows_clear hgoto.sound hin)⟩
      · rw [if_neg hmsip]
        exact ⟨s, rfl, h, .refl s⟩
  | sending task hartMask i =>
      simp only [next, hme]
      exact follows_sendNext h hme
  | sendingSelf e hartMask i => exact follows_sendingSelf h hme
  | entered =>
      refine ⟨s.goto me .handling, by simp only [next, hme], ?_⟩
      refine follows_goto h .handling (fun e he => ?_) fun _ => Or.inl rfl
      rw [hme] at he
      cases he
  | handling =>
      obtain ⟨xs, hlinked⟩ := h.linked me
      cases next_handling h hme hlinked with
      | inl hdone => exact ⟨_, hdone.1, hdone.2.1⟩
      | inr htakes =>
          obtain ⟨hart, task, -, hnext, hfollows, -⟩ := htakes
          exact ⟨_, hnext, hfollows⟩
  | executing e =>
      obtain ⟨c, hgenuine, hpart⟩ := h.executing hme
      by_cases hpoint : e.point = none
      · obtain ⟨hnext, hfollows⟩ := next_executed h hme hgenuine hpart hpoint
        exact ⟨_, hnext, hfollows⟩
      · obtain ⟨e', hnext, hfollows, -⟩ := next_executing h hme hgenuine hpart hpoint
        exact ⟨_, hnext, hfollows⟩

theorem sound_refused (h : s.Sound hartCount) (c : Call) {error : Int} (herror : error ≠ SBI_SUCCESS) :
    ((s.call c).return_ s.calls.length error).Sound hartCount :=
  (follows_return (follows_call h c).sound fun heq => absurd heq herror).sound

/-- A call whose block is in place begins to post. -/
theorem sound_ipiSendMany (h : s.Sound hartCount) (hidle : s.activity me = .idle)
    {handler : TaskHandler} {data : Option Nat} (hown : ∀ k, data = some k → k = me)
    (hdata : ∀ asid, Reads (s.info me) (some handler) asid → data = some me ∧ (s.info me).Ends)
    (sbiHartMask hartMask hartMaskBase : BitVec 64) :
    (s.ipiSendMany hartCount sbiHartMask me hartMask hartMaskBase handler data).Sound hartCount := by
  simp only [ipiSendMany]
  split
  · exact sound_refused h _ (by decide)
  · split
    · exact sound_refused h _ (by decide)
    · generalize hartMask <<< hartMaskBase.toNat &&& sbiHartMask = selected
      have hcall := follows_call h ⟨some handler, s.info me, selected⟩
      have hout : ((s.call ⟨some handler, s.info me, selected⟩).activity me).inHandler = false := by
        rw [call, hidle]
        rfl
      refine (follows_goto_of_not_inHandler hcall.sound (.sending
        (c := ⟨some handler, s.info me, selected⟩) ⟨⟨call_getElem? s _, rfl, ?_⟩, hown, rfl, ?_⟩)
        hout).sound
      · intro asid hreads
        obtain ⟨hdata, hends⟩ := hdata asid hreads
        exact ⟨by rw [hdata]; rfl, hends⟩
      · intro t ht
        cases ht

theorem sound_ipiSendMany_null (h : s.Sound hartCount) (hidle : s.activity me = .idle)
    (handler : TaskHandler) (hhandler : ∀ asid, ¬ Reads (s.info me) (some handler) asid)
    (sbiHartMask a0 a1 : BitVec 64) :
    (s.ipiSendMany hartCount sbiHartMask me a0 a1 handler none).Sound hartCount := by
  refine sound_ipiSendMany h hidle (fun k hk => ?_) (fun asid hreads => ?_) sbiHartMask a0 a1
  · cases hk
  · exact absurd hreads (hhandler asid)

/-- The block a call fills in. -/
def filled (info : SfenceVmaInfo) (a2 a3 a4 : BitVec 64) (fid : Int) : Option SfenceVmaInfo :=
  match fid with
  | 1 => some { info with start := a2, size := a3 }
  | 2 => some ⟨a2, a3, a4.setWidth 32⟩
  | _ => none

/-- A call with a block that its handler gets through, and that changes nothing that
a task points to. -/
def Undisturbed (s : Machine) : RfenceStep → Prop
  | .rfence me _ _ a2 a3 a4 fid => ∀ info, filled (s.info me) a2 a3 a4 fid = some info →
      info.Ends ∧ (s.Pointed me → info = s.info me)
  | .reuse me info => s.Pointed me → info = s.info me
  | _ => True

theorem sound_ecallRfence (h : s.Sound hartCount) (hidle : s.activity me = .idle)
    {a2 a3 a4 : BitVec 64} {fid : Int}
    (hfilled : ∀ info, filled (s.info me) a2 a3 a4 fid = some info →
      info.Ends ∧ (s.Pointed me → info = s.info me)) (sbiHartMask a0 a1 : BitVec 64) :
    (s.ecallRfence hartCount sbiHartMask me a0 a1 a2 a3 a4 fid).Sound hartCount := by
  have hcall : (s.activity me).inCall = false := by rw [hidle]; rfl
  have hpost (info : SfenceVmaInfo) (handler : TaskHandler)
      (hnew : info.Ends ∧ (s.Pointed me → info = s.info me)) :
      ((s.setInfo me info).ipiSendMany hartCount sbiHartMask me a0 a1 handler (some me)).Sound
        hartCount := by
    have hinfo : (s.setInfo me info).info me = info := Function.update_self _ _ _
    refine sound_ipiSendMany (sound_setInfo h hcall hnew.2) hidle (fun k hk => ?_)
      (fun _ _ => ⟨rfl, by rw [hinfo]; exact hnew.1⟩) sbiHartMask a0 a1
    cases hk
    rfl
  simp only [ecallRfence]
  split
  · exact sound_ipiSendMany_null h hidle .fencei nofun sbiHartMask a0 a1
  · exact hpost _ _ (hfilled _ rfl)
  · exact hpost _ _ (hfilled _ rfl)
  · exact sound_refused h _ (by decide)

theorem sound_wake (h : s.Sound hartCount) (me hartid : Nat) :
    ∃ s', s.wake me hartid = some s' ∧ s'.Sound hartCount := by
  simp only [wake]
  split
  · exact ⟨s, rfl, h⟩
  · have hcall := follows_call h ⟨none, s.info me, 0⟩
    obtain ⟨xs, hlinked⟩ := h.linked hartid
    cases send_holds hlinked ⟨s.calls.length, none, none⟩ with
    | inl hretry =>
        rw [hretry]
        exact ⟨_, rfl, hcall.sound⟩
    | inr haccepted =>
        obtain ⟨hart, xs', hsend, hlinked', hholds⟩ := haccepted
        have hgenuine : (s.call ⟨none, s.info me, 0⟩).Genuine ⟨s.calls.length, none, none⟩
            ⟨none, s.info me, 0⟩ :=
          ⟨call_getElem? s _, rfl, nofun⟩
        rw [hsend]
        exact ⟨_, rfl, (follows_posted hcall.sound hgenuine hlinked' hholds).1.sound⟩

theorem sound_step (h : s.Sound hartCount) (sbiHartMask : BitVec 64) (i : RfenceStep)
    (hi : s.Undisturbed i) :
    ∃ s', rfenceStep hartCount sbiHartMask s i = some s' ∧ s'.Sound hartCount := by
  have hidle {me : Nat} (hme : (s.activity me).isIdle = true) : s.activity me = .idle := by
    cases ha : s.activity me with
    | idle => rfl
    | _ =>
        rw [ha] at hme
        cases hme
  cases i with
  | rfence me a0 a1 a2 a3 a4 fid =>
      simp only [rfenceStep]
      split
      · next hme => exact ⟨_, rfl, sound_ecallRfence h (hidle hme) hi sbiHartMask a0 a1⟩
      · exact ⟨s, rfl, h⟩
  | sendIpi me a0 a1 =>
      simp only [rfenceStep]
      split
      · next hme => exact ⟨_, rfl, sound_ipiSendMany_null h (hidle hme) .sendIpi nofun sbiHartMask a0 a1⟩
      · exact ⟨s, rfl, h⟩
  | wake me hartid =>
      simp only [rfenceStep]
      split
      · exact sound_wake h me hartid
      · exact ⟨s, rfl, h⟩
  | reuse me info =>
      simp only [rfenceStep]
      split
      · exact ⟨s, rfl, h⟩
      · next hme => exact ⟨_, rfl, sound_setInfo h (Bool.eq_false_iff.mpr hme) hi⟩
  | next me =>
      obtain ⟨s', hnext, hfollows⟩ := follows_next h me
      exact ⟨s', hnext, hfollows.sound⟩

theorem sound_init (hartCount : Nat) (pools : Nat → Fin MAX_TASK_COUNT → Task)
    (info : Nat → SfenceVmaInfo) : (init pools info).Sound hartCount := by
  have hnone (t : Nat) (task : Task) : ¬ ((init pools info).harts t).Holds task :=
    not_holds (linked_init (pools t)) rfl task
  exact ⟨fun t => ⟨[], linked_init (pools t)⟩, fun t task hheld => absurd hheld (hnone t task),
    fun _ => .idle, fun t task hheld => absurd hheld (hnone t task), nofun, nofun⟩

end Step

section Progress
variable {hartCount me : Nat} {s s' : Machine}

/-- The next `k` steps of one hart. -/
def nexts (hartCount me : Nat) : Nat → Machine → Option Machine
  | 0, s => some s
  | k + 1, s => (s.next hartCount me).bind (nexts hartCount me k)

/-- The steps of one hart lead from one machine to the other. -/
structure Leads (hartCount me : Nat) (s s' : Machine) : Prop where
  steps : ∃ k, nexts hartCount me k s = some s'
  follows : Follows hartCount s s'

theorem Leads.refl (h : s.Sound hartCount) : Leads hartCount me s s :=
  ⟨⟨0, rfl⟩, h, .refl s⟩

theorem Leads.of_next (hnext : s.next hartCount me = some s')
    (hfollows : Follows hartCount s s') : Leads hartCount me s s' := by
  refine ⟨⟨1, ?_⟩, hfollows⟩
  rw [nexts, hnext, Option.bind_some, nexts]

theorem Leads.trans {s'' : Machine} (h : Leads hartCount me s s') (h' : Leads hartCount me s' s'') :
    Leads hartCount me s s'' := by
  obtain ⟨k, hk⟩ := h.steps
  obtain ⟨k', hk'⟩ := h'.steps
  refine ⟨⟨k + k', ?_⟩, h.follows.trans h'.follows⟩
  clear h h'
  induction k generalizing s with
  | zero =>
      cases hk
      rw [Nat.zero_add]
      exact hk'
  | succ k ih =>
      obtain ⟨s₁, hnext, hrest⟩ := Option.bind_eq_some_iff.mp hk
      rw [Nat.add_right_comm, nexts, hnext, Option.bind_some]
      exact ih hrest

/-- A handler returns. -/
theorem executing_ends (h : s.Sound hartCount) {e : Execution} {c : Call}
    (hme : s.activity me = .executing e) (hgenuine : s.Genuine e.task c) (hpart : Partway c e) :
    ∃ s', Leads hartCount me s s' ∧ s'.activity me = .handling ∧ s'.harts = s.harts := by
  induction hleft : e.left c using Nat.strong_induction_on generalizing s e with
  | _ n ih =>
      subst hleft
      by_cases hpoint : e.point = none
      · obtain ⟨hnext, hfollows⟩ := next_executed h hme hgenuine hpart hpoint
        exact ⟨_, .of_next hnext hfollows, Function.update_self _ _ _, rfl⟩
      · obtain ⟨e', hnext, hfollows, hgenuine', hpart', hless⟩ :=
          next_executing h hme hgenuine hpart hpoint
        obtain ⟨s', hleads, hhandling, hharts⟩ := ih _ hless hfollows.sound
          (Function.update_self _ _ _) (hgenuine'.later hfollows.later fun _ _ => rfl) hpart' rfl
        exact ⟨s', (Leads.of_next hnext hfollows).trans hleads, hhandling, hharts⟩

/-- The steps of one hart lead to where it holds no task. -/
def Drains (hartCount me : Nat) (s : Machine) : Prop :=
  ∃ s', Leads hartCount me s s' ∧ s'.activity me = .idle ∧ ∀ task, ¬ (s'.harts me).Holds task

theorem Leads.drains (h : Leads hartCount me s s') (hdrains : Drains hartCount me s') :
    Drains hartCount me s := by
  obtain ⟨s'', h', hend⟩ := hdrains
  exact ⟨s'', h.trans h', hend⟩

/-- The loop over the tasks ends with none left. -/
theorem handling_drains (h : s.Sound hartCount) (hme : s.activity me = .handling) :
    Drains hartCount me s := by
  obtain ⟨xs, hlinked⟩ := h.linked me
  -- every turn but the last takes a node out of the list
  induction hlen : xs.length using Nat.strong_induction_on generalizing s xs with
  | _ n ih =>
      cases next_handling h hme hlinked with
      | inl hdone =>
          obtain ⟨hnext, hfollows, hnone⟩ := hdone
          exact ⟨_, .of_next hnext hfollows, Function.update_self _ _ _, hnone⟩
      | inr htakes =>
          obtain ⟨hart, task, xs', hnext, hfollows, hlinked', hlen'⟩ := htakes
          have hruns : (s.took me hart task).activity me = .executing (.start task) :=
            Function.update_self _ _ _
          obtain ⟨c, hgenuine, hpart⟩ := hfollows.sound.executing hruns
          obtain ⟨s₁, hleads, hhandling, hharts⟩ :=
            executing_ends hfollows.sound hruns hgenuine hpart
          have hlinked₁ : Linked (s₁.harts me) xs' := by
            rw [hharts, show (s.took me hart task).harts me = hart from Function.update_self _ _ _]
            exact hlinked'
          refine (Leads.of_next hnext hfollows).drains (hleads.drains ?_)
          exact ih xs'.length (by omega) hleads.follows.sound hhandling xs' hlinked₁ rfl

theorem entered_drains (h : s.Sound hartCount) (hme : s.activity me = .entered) :
    Drains hartCount me s := by
  obtain ⟨s', hnext, hfollows⟩ := follows_next h me
  have hs' : s' = s.goto me .handling := by
    simp only [next, hme, Option.some.injEq] at hnext
    exact hnext.symm
  have hhandling : s'.activity me = .handling := by
    rw [hs']
    exact Function.update_self _ _ _
  exact (Leads.of_next hnext hfollows).drains (handling_drains hfollows.sound hhandling)

/-- A hart that holds a task has its interrupt pending. -/
theorem idle_drains (h : s.Sound hartCount) (hme : s.activity me = .idle) :
    Drains hartCount me s := by
  by_cases hmsip : s.msip me = true
  · obtain ⟨s', hnext, hfollows⟩ := follows_next h me
    have hs' : s' = { s.goto me .entered with msip := Function.update s.msip me false } := by
      simp only [next, hme, if_pos hmsip, Option.some.injEq] at hnext
      exact hnext.symm
    have hentered : s'.activity me = .entered := by
      rw [hs']
      exact Function.update_self _ _ _
    exact (Leads.of_next hnext hfollows).drains (entered_drains hfollows.sound hentered)
  · refine ⟨s, .refl h, hme, fun task hholds => ?_⟩
    cases h.woken me task hholds with
    | inl hset => exact hmsip hset
    | inr hin =>
        rw [hme] at hin
        cases hin

/-- A hart that is in no call runs all tasks it holds. -/
theorem drains_of_not_inCall (h : s.Sound hartCount) (hme : (s.activity me).inCall = false) :
    Drains hartCount me s := by
  cases ha : s.activity me with
  | idle => exact idle_drains h ha
  | sending | sendingSelf =>
      rw [ha] at hme
      cases hme
  | entered => exact entered_drains h ha
  | handling => exact handling_drains h ha
  | executing e =>
      obtain ⟨c, hgenuine, hpart⟩ := h.executing ha
      obtain ⟨s', hleads, hhandling, -⟩ := executing_ends h ha hgenuine hpart
      exact hleads.drains (handling_drains hleads.follows.sound hhandling)

/-- A hart that is in no call executes the fence of a call that has served it. -/
theorem served_executes (h : s.Sound hartCount) {number : Nat} {c : Call}
    (hc : s.calls[number]? = some c) (hserved : s.Served me number)
    (hme : (s.activity me).inCall = false) :
    ∃ k s', nexts hartCount me k s = some s' ∧ ⟨me, number, c.fence⟩ ∈ s'.log := by
  obtain ⟨s', hleads, hidle, hnone⟩ := drains_of_not_inCall h hme
  obtain ⟨k, hk⟩ := hleads.steps
  refine ⟨k, s', hk, ?_⟩
  cases hleads.follows.later.served me number hserved with
  | @executed x hx hhart hnumber =>
      subst hhart hnumber
      obtain ⟨c', hc', hissued⟩ := hleads.follows.sound.log x hx
      rw [hleads.follows.later.calls _ _ hc] at hc'
      cases hc'
      rw [← hissued]
      exact hx
  | waiting hholds => exact absurd hholds (hnone _)
  | running hruns =>
      rw [hidle] at hruns
      cases hruns

end Progress
end Machine

/-- States reached by undisturbed steps of any harts; `none` stands for a failed one. -/
def RfenceReachable (hartCount : Nat) (sbiHartMask : BitVec 64)
    (pools : Nat → Fin MAX_TASK_COUNT → Task) (info : Nat → SfenceVmaInfo) :
    Option Machine → Prop :=
  Reachable (fun s i => s.bind (rfenceStep hartCount sbiHartMask · i))
    (fun s i => ∀ m, s = some m → m.Undisturbed i) (some (Machine.init pools info))

/-- In every run in which no block changes while a task points to it and no size
wraps the page counter around, what a hart executes for a call is the fence of that
call, and every hart of the mask of a call that returned success has executed it or
still has its task, and executes it by its own next steps unless it is in a call. -/
theorem undisturbed_calls_are_executed (hartCount : Nat) (sbiHartMask : BitVec 64)
    (pools : Nat → Fin MAX_TASK_COUNT → Task) (info : Nat → SfenceVmaInfo) (state : Option Machine)
    (hreach : RfenceReachable hartCount sbiHartMask pools info state) :
    ∃ s, state = some s ∧
      (∀ x ∈ s.log, ∃ c, s.calls[x.number]? = some c ∧ x.issued = c.fence) ∧
      ∀ (number : Nat) (c : Call), s.calls[number]? = some c →
        (number, SBI_SUCCESS) ∈ s.returned → ∀ t < hartCount, c.hartMask.getLsbD t = true →
          s.Served t number ∧ ((s.activity t).inCall = false →
            ∃ k s', Machine.nexts hartCount t k s = some s' ∧ ⟨t, number, c.fence⟩ ∈ s'.log) := by
  have hsound : ∃ s, state = some s ∧ s.Sound hartCount := by
    refine hreach.invariant (I := fun state => ∃ s, state = some s ∧ s.Sound hartCount)
      ⟨_, rfl, Machine.sound_init hartCount pools info⟩ ?_
    intro state i hs hi
    obtain ⟨s, rfl, hs⟩ := hs
    exact Machine.sound_step hs sbiHartMask i (hi s rfl)
  obtain ⟨s, rfl, h⟩ := hsound
  refine ⟨s, rfl, h.log, fun number c hc hreturned t ht hbit => ?_⟩
  obtain ⟨c', hc', hserved⟩ := h.returned number hreturned
  rw [hc] at hc'
  cases hc'
  exact ⟨hserved t ht hbit, Machine.served_executes h hc (hserved t ht hbit)⟩

/-- Hart 0 asks hart 1 to fence a page. -/
def pageCall : List RfenceStep :=
  [.rfence 0 2 0 0x1000 0x1000 0 1, .next 0, .next 0, .next 0]

def rfenceRun (steps : List RfenceStep) : Option Machine :=
  (pageCall ++ steps).foldl (fun s i => s.bind (rfenceStep 2 3 · i))
    (some (Machine.init (fun _ _ => ⟨0, none, none⟩) fun _ => ⟨0, 0, 0⟩))

theorem undisturbed_calls_are_executed_one :
    ∃ s, rfenceRun [] = some s ∧ (0, SBI_SUCCESS) ∈ s.returned ∧
      ∃ k s', Machine.nexts 2 1 k s = some s' ∧
        ⟨1, 0, [.sfenceVma (some 0x1000) none]⟩ ∈ s'.log := by
  have hcall : (Machine.init (fun _ _ => ⟨0, none, none⟩) fun _ => ⟨0, 0, 0⟩).Undisturbed
      (.rfence 0 2 0 0x1000 0x1000 0 1) := by
    intro info hinfo
    cases hinfo
    refine ⟨Or.inr (by decide), fun hpointed => ?_⟩
    cases hpointed with
    | waiting hholds => exact absurd hholds (not_holds (linked_init _) rfl _)
    | running hruns => cases hruns
  have hreach : RfenceReachable 2 3 (fun _ _ => ⟨0, none, none⟩) (fun _ => ⟨0, 0, 0⟩)
      (rfenceRun []) := by
    have hfirst : RfenceReachable 2 3 (fun _ _ => ⟨0, none, none⟩) (fun _ => ⟨0, 0, 0⟩) _ :=
      Reachable.step (i := RfenceStep.rfence 0 2 0 0x1000 0x1000 0 1) .init fun m hm => by
        cases hm
        exact hcall
    refine hfirst.foldl pageCall.tail fun i hi s m _ => ?_
    simp only [pageCall, List.tail_cons, List.mem_cons, List.not_mem_nil, or_false, or_self] at hi
    subst hi
    trivial
  obtain ⟨s, hs, -, hexecuted⟩ := undisturbed_calls_are_executed 2 3 _ _ _ hreach
  refine ⟨s, hs, ?_⟩
  cases hs
  exact ⟨by decide, (hexecuted 0 ⟨some .sfenceVma, ⟨0x1000, 0x1000, 0⟩, 2⟩ rfl (by decide) 1
    (by decide) (by decide)).2 rfl⟩

/-- The call has returned, and hart 0 makes another one before hart 1 runs its task. -/
theorem second_call_overwrites_block :
    ((rfenceRun ([.rfence 0 2 0 0x5000 0x1000 0 1] ++ List.replicate 7 (.next 1))).map fun s =>
        (s.returned, (s.calls.head?.map Call.fence), s.log)) =
      some ([(0, SBI_SUCCESS)], some [.sfenceVma (some 0x1000) none],
        [⟨1, 0, [.sfenceVma (some 0x5000) none]⟩]) := by
  decide
end Plo.Sbi
