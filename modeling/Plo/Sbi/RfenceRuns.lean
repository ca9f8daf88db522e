import Plo.Sbi.IpiQueue
import Plo.Sbi.RfenceTask

/-!
Remote fences over whole runs. As long as no block changes while a task points to it,
every task that waits or runs is one of a call whose block is still in place, and
every hart of the mask of a call that has returned has run the task of the call or
still has it.
-/
namespace Plo.Sbi

def Activity.inHandler : Activity → Bool
  | .entered | .handling | .executing _ => true
  | _ => false

namespace Machine

/-- The task is one of this call, whose block is in place. -/
structure Genuine (s : Machine) (task : Task) (c : Call) : Prop where
  call : s.calls[task.number]? = some c
  points : Points s.info task c

/-- The hart has run the task of a call, holds it, or is running it. -/
inductive Served (s : Machine) (t number : Nat) : Prop
  | executed {x : Executed} (hlog : x ∈ s.log) (hhart : x.hart = t) (hnumber : x.number = number)
  | waiting {task : Task} (hholds : (s.harts t).Holds task) (hnumber : task.number = number)
  | running {e : Execution} (hruns : s.activity t = .executing e)
      (hnumber : e.task.number = number)

/-- A task that some hart holds or is running points to the block of `h`. -/
inductive Pointed (s : Machine) (h : Nat) : Prop
  | waiting {t : Nat} {task : Task} (hholds : (s.harts t).Holds task) (hdata : task.data = some h)
  | running {t : Nat} {e : Execution} (hruns : s.activity t = .executing e)
      (hdata : e.task.data = some h)

/-- A call that is about to post its task to the hart `i`. -/
structure Sends (s : Machine) (me : Nat) (task : Task) (hartMask : BitVec 64) (i : Nat)
    (c : Call) : Prop where
  genuine : s.Genuine task c
  own : ∀ h, task.data = some h → h = me
  hartMask_eq : c.hartMask = hartMask
  served : ∀ t < i, hartMask.getLsbD t = true → s.Served t task.number

/-- What holds of a hart by where it is. -/
inductive Doing (s : Machine) (me : Nat) : Activity → Prop
  | idle : Doing s me .idle
  | sending {task : Task} {hartMask : BitVec 64} {i : Nat} {c : Call}
      (hsends : s.Sends me task hartMask i c) : Doing s me (.sending task hartMask i)
  | sendingSelf {e : Execution} {hartMask : BitVec 64} {c : Call}
      (hsends : s.Sends me e.task hartMask me c) (hpart : Partway c e) :
      Doing s me (.sendingSelf e hartMask me)
  | entered : Doing s me .entered
  | handling : Doing s me .handling
  | executing {e : Execution} {c : Call} (hgenuine : s.Genuine e.task c) (hpart : Partway c e) :
      Doing s me (.executing e)

/-- A call that has returned success, and the harts it was for. -/
def Fulfilled (hartCount : Nat) (s : Machine) (number : Nat) : Prop :=
  ∃ c, s.calls[number]? = some c ∧
    ∀ t < hartCount, c.hartMask.getLsbD t = true → s.Served t number

structure Sound (hartCount : Nat) (s : Machine) : Prop where
  linked : ∀ t, ∃ xs, Linked (s.harts t) xs
  held : ∀ t task, (s.harts t).Holds task → ∃ c, s.Genuine task c
  doing : ∀ t, s.Doing t (s.activity t)
  woken : ∀ t task, (s.harts t).Holds task → s.msip t = true ∨ (s.activity t).inHandler = true
  log : ∀ x ∈ s.log, ∃ c, s.calls[x.number]? = some c ∧ x.issued = c.fence
  returned : ∀ number, (number, SBI_SUCCESS) ∈ s.returned → s.Fulfilled hartCount number

/-- The task a hart runs is one of a call. -/
theorem Sound.executing {hartCount me : Nat} {s : Machine} {e : Execution}
    (h : s.Sound hartCount) (hme : s.activity me = .executing e) :
    ∃ c, s.Genuine e.task c ∧ Partway c e := by
  have hdoing := h.doing me
  rw [hme] at hdoing
  cases hdoing with
  | executing hgenuine hpart => exact ⟨_, hgenuine, hpart⟩

/-- Calls stay what they were, and a hart that has been served stays so. -/
structure Later (s s' : Machine) : Prop where
  calls : ∀ (number : Nat) (c : Call), s.calls[number]? = some c → s'.calls[number]? = some c
  served : ∀ t number, s.Served t number → s'.Served t number

section Later
variable {hartCount me : Nat} {s s' : Machine} {task : Task} {c : Call}

theorem Served.congr {t number : Nat} (hlog : s'.log = s.log) (hharts : s'.harts = s.harts)
    (hactivity : s'.activity = s.activity) (h : s.Served t number) : s'.Served t number := by
  cases h with
  | executed hx hhart hnumber => exact .executed (hlog ▸ hx) hhart hnumber
  | waiting hholds hnumber => exact .waiting (hharts ▸ hholds) hnumber
  | running hruns hnumber => exact .running (hactivity ▸ hruns) hnumber

theorem Later.refl (s : Machine) : Later s s := ⟨fun _ _ => id, fun _ _ => id⟩

theorem Later.trans {s'' : Machine} (h : Later s s') (h' : Later s' s'') : Later s s'' :=
  ⟨fun n c hc => h'.calls n c (h.calls n c hc), fun t n hn => h'.served t n (h.served t n hn)⟩

theorem Genuine.later (h : s.Genuine task c) (hlater : Later s s')
    (hinfo : ∀ k, task.data = some k → s'.info k = s.info k) : s'.Genuine task c := by
  refine ⟨hlater.calls _ _ h.call, h.points.handler, fun asid hreads => ?_⟩
  obtain ⟨hdata, hends⟩ := h.points.data asid hreads
  refine ⟨?_, hends⟩
  rw [← hdata]
  exact Option.map_congr hinfo

theorem Sends.later {hartMask : BitVec 64} {i : Nat} (h : s.Sends me task hartMask i c)
    (hlater : Later s s') (hinfo : s'.info me = s.info me) : s'.Sends me task hartMask i c := by
  refine ⟨h.genuine.later hlater ?_, h.own, h.hartMask_eq, fun t ht hbit => ?_⟩
  · intro k hk
    rw [h.own k hk, hinfo]
  · exact hlater.served _ _ (h.served t ht hbit)

theorem Doing.later {a : Activity} (h : s.Doing me a) (hlater : Later s s')
    (hinfo : s'.info = s.info) : s'.Doing me a := by
  cases h with
  | idle => exact .idle
  | entered => exact .entered
  | handling => exact .handling
  | sending hsends => exact .sending (hsends.later hlater (congrFun hinfo me))
  | sendingSelf hsends hpart => exact .sendingSelf (hsends.later hlater (congrFun hinfo me)) hpart
  | executing hgenuine hpart =>
      exact .executing (hgenuine.later hlater fun k _ => congrFun hinfo k) hpart

theorem Fulfilled.later {number : Nat} (h : s.Fulfilled hartCount number) (hlater : Later s s') :
    s'.Fulfilled hartCount number := by
  obtain ⟨c, hc, hserved⟩ := h
  exact ⟨c, hlater.calls _ _ hc, fun t ht hbit => hlater.served _ _ (hserved t ht hbit)⟩

/-- A sound machine that follows another one. -/
structure Follows (hartCount : Nat) (s s' : Machine) : Prop where
  sound : s'.Sound hartCount
  later : Later s s'

theorem Follows.trans {s'' : Machine} (h : Follows hartCount s s') (h' : Follows hartCount s' s'') :
    Follows hartCount s s'' :=
  ⟨h'.sound, h.later.trans h'.later⟩

/-- What a step that changes no block has to keep. -/
theorem Sound.follows (h : s.Sound hartCount) (hlater : Later s s') (hinfo : s'.info = s.info)
    (hlinked : ∀ t, ∃ xs, Linked (s'.harts t) xs)
    (hheld : ∀ t task, (s'.harts t).Holds task → (s.harts t).Holds task ∨ ∃ c, s'.Genuine task c)
    (hdoing : ∀ t, s'.activity t = s.activity t ∨ s.Doing t (s'.activity t))
    (hwoken : ∀ t task, (s'.harts t).Holds task →
      s'.msip t = true ∨ (s'.activity t).inHandler = true)
    (hlog : ∀ x ∈ s'.log, x ∈ s.log ∨ ∃ c, s'.calls[x.number]? = some c ∧ x.issued = c.fence)
    (hreturned : ∀ number, (number, SBI_SUCCESS) ∈ s'.returned →
      (number, SBI_SUCCESS) ∈ s.returned ∨ s.Fulfilled hartCount number) :
    Follows hartCount s s' := by
  refine ⟨⟨hlinked, fun t task hholds => ?_, fun t => ?_, hwoken, fun x hx => ?_,
    fun number hn => ?_⟩, hlater⟩
  · cases hheld t task hholds with
    | inl hold =>
        obtain ⟨c, hc⟩ := h.held t task hold
        exact ⟨c, hc.later hlater fun k _ => congrFun hinfo k⟩
    | inr hnew => exact hnew
  · cases hdoing t with
    | inl heq =>
        rw [heq]
        exact (h.doing t).later hlater hinfo
    | inr hnew => exact hnew.later hlater hinfo
  · cases hlog x hx with
    | inl hold =>
        obtain ⟨c, hc, hissued⟩ := h.log x hold
        exact ⟨c, hlater.calls _ _ hc, hissued⟩
    | inr hnew => exact hnew
  · cases hreturned number hn with
    | inl hold => exact (h.returned number hold).later hlater
    | inr hnew => exact hnew.later hlater

end Later

section Operations
variable {hartCount me : Nat} {s : Machine}

theorem doing_update {a : Activity} (hdoing : s.Doing me a) :
    ∀ t, Function.update s.activity me a t = s.activity t ∨
      s.Doing t (Function.update s.activity me a t) :=
  (Function.forall_update_iff s.activity fun t a' => a' = s.activity t ∨ s.Doing t a').mpr
    ⟨Or.inr hdoing, fun _ _ => Or.inl rfl⟩

theorem linked_update (h : s.Sound hartCount) {hart : Hart TaskHandler (Option Nat)}
    {xs : List (Fin MAX_TASK_COUNT)} (hlinked : Linked hart xs) (k : Nat) :
    ∀ t, ∃ xs, Linked (Function.update s.harts k hart t) xs :=
  (Function.forall_update_iff s.harts fun _ hart => ∃ xs, Linked hart xs).mpr
    ⟨⟨xs, hlinked⟩, fun t _ => h.linked t⟩

/-- A hart that leaves a task behind has run it. -/
theorem later_goto {a : Activity} (hexec : ∀ e, s.activity me = .executing e →
      (∃ x ∈ s.log, x.hart = me ∧ x.number = e.task.number) ∨
        ∃ e', a = .executing e' ∧ e'.task.number = e.task.number) :
    Later s (s.goto me a) := by
  have hself : (s.goto me a).activity me = a := Function.update_self _ _ _
  refine ⟨fun _ _ => id, fun t number hserved => ?_⟩
  cases hserved with
  | executed hlog hhart hnumber => exact .executed hlog hhart hnumber
  | waiting hholds hnumber => exact .waiting hholds hnumber
  | @running e hruns hnumber =>
      by_cases ht : t = me
      · subst ht
        cases hexec e hruns with
        | inl hlogged =>
            obtain ⟨x, hx, hhart, hnumber'⟩ := hlogged
            exact .executed hx hhart (hnumber'.trans hnumber)
        | inr hagain =>
            obtain ⟨e', ha, hnumber'⟩ := hagain
            exact .running (hself.trans ha) (hnumber'.trans hnumber)
      · exact .running ((Function.update_of_ne ht _ _).trans hruns) hnumber

/-- A hart moves on, and out of its handler only when it holds no task. -/
theorem follows_goto (h : s.Sound hartCount) {a : Activity} (hdoing : s.Doing me a)
    (hexec : ∀ e, s.activity me = .executing e →
      (∃ x ∈ s.log, x.hart = me ∧ x.number = e.task.number) ∨
        ∃ e', a = .executing e' ∧ e'.task.number = e.task.number)
    (hwoken : (s.activity me).inHandler = true →
      a.inHandler = true ∨ ∀ task, ¬ (s.harts me).Holds task) :
    Follows hartCount s (s.goto me a) := by
  refine h.follows (later_goto hexec) rfl h.linked (fun _ _ => Or.inl) (doing_update hdoing)
    (fun t task hholds => ?_) (fun _ => Or.inl) fun _ => Or.inl
  refine (h.woken t task hholds).imp id fun hin => ?_
  by_cases ht : t = me
  · subst ht
    rw [show (s.goto t a).activity t = a from Function.update_self _ _ _]
    exact (hwoken hin).resolve_right fun hnone => hnone task hholds
  · rw [show (s.goto me a).activity t = s.activity t from Function.update_of_ne ht _ _]
    exact hin

/-- A hart that was outside its handler moves on outside of it. -/
theorem follows_goto_of_not_inHandler (h : s.Sound hartCount) {a : Activity}
    (hdoing : s.Doing me a) (hout : (s.activity me).inHandler = false) :
    Follows hartCount s (s.goto me a) := by
  refine follows_goto h hdoing (fun e he => ?_) fun hin => ?_
  · rw [he] at hout
    cases hout
  · rw [hout] at hin
    cases hin

theorem follows_record (h : s.Sound hartCount) {x : Executed} {c : Call}
    (hc : s.calls[x.number]? = some c) (hissued : x.issued = c.fence) :
    Follows hartCount s (s.record x) := by
  refine h.follows ⟨fun _ _ => id, fun t number hserved => ?_⟩ rfl h.linked
    (fun _ _ => Or.inl) (fun _ => Or.inl rfl) h.woken (fun y hy => ?_) fun _ => Or.inl
  · cases hserved with
    | executed hlog hhart hnumber => exact .executed (List.mem_append_left _ hlog) hhart hnumber
    | waiting hholds hnumber => exact .waiting hholds hnumber
    | running hruns hnumber => exact .running hruns hnumber
  · cases List.mem_append.mp hy with
    | inl hold => exact Or.inl hold
    | inr hnew =>
        rw [List.mem_singleton.mp hnew]
        exact Or.inr ⟨c, hc, hissued⟩

theorem follows_return (h : s.Sound hartCount) {number : Nat} {error : Int}
    (hdone : error = SBI_SUCCESS → s.Fulfilled hartCount number) :
    Follows hartCount s (s.return_ number error) := by
  refine h.follows ⟨fun _ _ => id, fun _ _ => Served.congr rfl rfl rfl⟩ rfl h.linked
    (fun _ _ => Or.inl) (fun _ => Or.inl rfl) h.woken (fun _ => Or.inl) fun n hn => ?_
  cases List.mem_append.mp hn with
  | inl hold => exact Or.inl hold
  | inr hnew =>
      cases List.mem_singleton.mp hnew
      exact Or.inr (hdone rfl)

theorem follows_call (h : s.Sound hartCount) (c : Call) : Follows hartCount s (s.call c) := by
  refine h.follows ⟨fun n c' hc => ?_, fun _ _ => Served.congr rfl rfl rfl⟩ rfl h.linked
    (fun _ _ => Or.inl) (fun _ => Or.inl rfl) h.woken (fun _ => Or.inl) fun _ => Or.inl
  obtain ⟨hlt, -⟩ := List.getElem?_eq_some_iff.mp hc
  exact (List.getElem?_append_left hlt).trans hc

theorem call_getElem? (s : Machine) (c : Call) : (s.call c).calls[s.calls.length]? = some c :=
  List.getElem?_concat_length

theorem later_posted {t : Nat} {hart : Hart TaskHandler (Option Nat)}
    (hholds : ∀ q, (s.harts t).Holds q → hart.Holds q) : Later s (s.posted t hart) := by
  refine ⟨fun _ _ => id, fun k number hserved => ?_⟩
  cases hserved with
  | executed hlog hhart hnumber => exact .executed hlog hhart hnumber
  | running hruns hnumber => exact .running hruns hnumber
  | @waiting q hq hnumber =>
      have hstill : ∀ k q, (s.harts k).Holds q → ((s.posted t hart).harts k).Holds q :=
        (Function.forall_update_iff s.harts fun k hart => ∀ q, (s.harts k).Holds q →
          hart.Holds q).mpr ⟨hholds, fun _ _ _ => id⟩
      exact .waiting (hstill k q hq) hnumber

/-- A hart accepts the task of a call. -/
theorem follows_posted (h : s.Sound hartCount) {t : Nat} {task : Task} {c : Call}
    {hart : Hart TaskHandler (Option Nat)} {xs : List (Fin MAX_TASK_COUNT)}
    (hgenuine : s.Genuine task c) (hlinked : Linked hart xs)
    (hholds : ∀ q, hart.Holds q ↔ (s.harts t).Holds q ∨ q = task) :
    Follows hartCount s (s.posted t hart) ∧ (s.posted t hart).Served t task.number := by
  have hlater := later_posted fun q hq => (hholds q).mpr (Or.inl hq)
  have hheld : ∀ k q, ((s.posted t hart).harts k).Holds q →
      (s.harts k).Holds q ∨ ∃ c, (s.posted t hart).Genuine q c := by
    refine (Function.forall_update_iff s.harts fun k hart' => ∀ q, hart'.Holds q →
      (s.harts k).Holds q ∨ ∃ c, (s.posted t hart).Genuine q c).mpr
      ⟨fun q hq => ?_, fun _ _ _ => Or.inl⟩
    refine ((hholds q).mp hq).imp id fun heq => ⟨c, ?_⟩
    rw [heq]
    exact hgenuine.later hlater fun _ _ => rfl
  refine ⟨h.follows hlater rfl (linked_update h hlinked t) hheld (fun _ => Or.inl rfl)
    (fun k q hq => ?_) (fun _ => Or.inl) fun _ => Or.inl, ?_⟩
  · by_cases hk : k = t
    · subst hk
      exact Or.inl (Function.update_self _ _ _)
    · rw [show (s.posted t hart).harts k = s.harts k from Function.update_of_ne hk _ _] at hq
      exact (h.woken k q hq).imp (Function.update_of_ne hk _ _).trans id
  · have hnew : ((s.posted t hart).harts t).Holds task := by
      rw [show (s.posted t hart).harts t = hart from Function.update_self _ _ _, hholds]
      exact Or.inr rfl
    exact .waiting hnew rfl

theorem later_took (hme : s.activity me = .handling) {task : Task}
    {hart : Hart TaskHandler (Option Nat)}
    (hholds : ∀ q, (s.harts me).Holds q → q = task ∨ hart.Holds q) :
    Later s (s.took me hart task) := by
  have hself : (s.took me hart task).harts me = hart := Function.update_self _ _ _
  refine ⟨fun _ _ => id, fun t number hserved => ?_⟩
  cases hserved with
  | executed hlog hhart hnumber => exact .executed hlog hhart hnumber
  | @waiting q hq hnumber =>
      by_cases ht : t = me
      · subst ht
        cases hholds q hq with
        | inl heq =>
            subst heq
            exact .running (Function.update_self _ _ _) hnumber
        | inr hq => exact .waiting (hself.symm ▸ hq) hnumber
      · have hother : (s.took me hart task).harts t = s.harts t := Function.update_of_ne ht _ _
        exact .waiting (hother.symm ▸ hq) hnumber
  | running he hnumber =>
      have ht : t ≠ me := by
        intro heq
        rw [heq, hme] at he
        cases he
      exact .running ((Function.update_of_ne ht _ _).trans he) hnumber

/-- The handler takes a task out of the list and runs it. -/
theorem follows_took (h : s.Sound hartCount) (hme : s.activity me = .handling) {task : Task}
    {hart : Hart TaskHandler (Option Nat)} {xs : List (Fin MAX_TASK_COUNT)}
    (hlinked : Linked hart xs) (hholds : ∀ q, (s.harts me).Holds q ↔ q = task ∨ hart.Holds q) :
    Follows hartCount s (s.took me hart task) := by
  have hheld : ∀ t q, ((s.took me hart task).harts t).Holds q → (s.harts t).Holds q :=
    (Function.forall_update_iff s.harts fun t hart => ∀ q, hart.Holds q → (s.harts t).Holds q).mpr
      ⟨fun q hq => (hholds q).mpr (Or.inr hq), fun _ _ _ => id⟩
  obtain ⟨c, hc⟩ := h.held me task ((hholds task).mpr (Or.inl rfl))
  have hdoing : s.Doing me (.executing (.start task)) :=
    .executing hc (partway_start hc.points.handler)
  refine h.follows (later_took hme fun q => (hholds q).mp) rfl (linked_update h hlinked me)
    (fun t q hq => Or.inl (hheld t q hq)) (doing_update hdoing) (fun t q hq => ?_)
    (fun _ => Or.inl) fun _ => Or.inl
  refine (h.woken t q (hheld t q hq)).imp id fun hin => ?_
  by_cases ht : t = me
  · subst ht
    rw [show (s.took t hart task).activity t = .executing (.start task) from
      Function.update_self _ _ _]
    rfl
  · rw [show (s.took me hart task).activity t = s.activity t from Function.update_of_ne ht _ _]
    exact hin

/-- A hart that is in its handler has cleared its interrupt. -/
theorem follows_clear (h : s.Sound hartCount) (hme : (s.activity me).inHandler = true) :
    Follows hartCount s { s with msip := Function.update s.msip me false } := by
  refine h.follows ⟨fun _ _ => id, fun _ _ => Served.congr rfl rfl rfl⟩ rfl h.linked
    (fun _ _ => Or.inl) (fun _ => Or.inl rfl) (fun t task hholds => ?_) (fun _ => Or.inl)
    fun _ => Or.inl
  by_cases ht : t = me
  · subst ht
    exact Or.inr hme
  · exact (h.woken t task hholds).imp (Function.update_of_ne ht _ _).trans id

/-- The block of a hart that is in no call changes when no task points to it. -/
theorem sound_setInfo (h : s.Sound hartCount) {info : SfenceVmaInfo}
    (hme : (s.activity me).inCall = false) (hpointed : s.Pointed me → info = s.info me) :
    (s.setInfo me info).Sound hartCount := by
  have hlater : Later s (s.setInfo me info) := ⟨fun _ _ => id, fun _ _ => Served.congr rfl rfl rfl⟩
  have hkeep {k : Nat} (hk : s.Pointed k) : (s.setInfo me info).info k = s.info k := by
    by_cases heq : k = me
    · subst heq
      exact (Function.update_self _ _ _).trans (hpointed hk)
    · exact Function.update_of_ne heq _ _
  refine ⟨h.linked, fun t task hholds => ?_, fun t => ?_, h.woken, h.log,
    fun number hn => (h.returned number hn).later hlater⟩
  · obtain ⟨c, hc⟩ := h.held t task hholds
    exact ⟨c, hc.later hlater fun k hk => hkeep (.waiting hholds hk)⟩
  · have hdoing := h.doing t
    have hcall (ha : (s.activity t).inCall = true) : (s.setInfo me info).info t = s.info t := by
      refine Function.update_of_ne ?_ _ _
      intro heq
      rw [heq, hme] at ha
      cases ha
    show (s.setInfo me info).Doing t (s.activity t)
    generalize ha : s.activity t = a at hdoing hcall
    cases hdoing with
    | idle => exact .idle
    | entered => exact .entered
    | handling => exact .handling
    | sending hsends => exact .sending (hsends.later hlater (hcall rfl))
    | sendingSelf hsends hpart => exact .sendingSelf (hsends.later hlater (hcall rfl)) hpart
    | executing hgenuine hpart =>
        refine .executing (hgenuine.later hlater fun k hk => ?_) hpart
        exact hkeep (.running ha hk)

end Operations

end Machine
end Plo.Sbi
