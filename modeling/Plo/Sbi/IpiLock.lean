import Plo.Base.Critical
import Plo.Sbi.IpiQueue

/-!
The lock of a hart's tasks. `sbi_ipiSend` and `sbi_ipiHandler` written access by access,
as they run between `spinlock_set` and `spinlock_clear`: in every interleaving of the
accesses of all harts the tasks of a hart are those of a queue of sixteen places that is
used by one call after another.
-/
namespace Plo.Sbi
open Plo.Critical
variable {η δ : Type}

inductive Request (η δ : Type)
  | send (p : Post η δ)
  | handler

inductive Answer (η δ : Type)
  | sent (ret : Int)
  | ran (posts : List (Post η δ))

abbrev HartCode (η δ ρ : Type) := Code (Hart η δ) ρ

abbrev Node := Fin MAX_TASK_COUNT

def readLinks {α : Type} (f : Links Node → α) : HartCode η δ α := .read fun s => f s.links

def writeLinks (f : Links Node → Links Node) : HartCode η δ PUnit :=
  .write fun s => { s with links := f s.links }

/-- `lib_listAdd`. -/
def listAddCode (list : Cell Node) (t : Node) : HartCode η δ PUnit := do
  match ← readLinks (·.load list) with
  | none =>
    writeLinks (·.setNext t (some t))
    writeLinks (·.setPrev t (some t))
    writeLinks (·.store list (some t))
  | some _ =>
    let first ← Code.need (← readLinks (·.load list))
    let prev ← readLinks (·.prev first)
    writeLinks (·.setPrev t prev)
    let first ← Code.need (← readLinks (·.load list))
    let prev ← Code.need (← readLinks (·.prev first))
    writeLinks (·.setNext prev (some t))
    let first ← readLinks (·.load list)
    writeLinks (·.setNext t first)
    let first ← Code.need (← readLinks (·.load list))
    writeLinks (·.setPrev first (some t))

/-- `lib_listRemove`. -/
def listRemoveCode (list : Cell Node) (t : Node) : HartCode η δ PUnit := do
  let next ← readLinks (·.next t)
  let prev ← readLinks (·.prev t)
  if next = some t ∧ prev = some t then writeLinks (·.store list none)
  else
    let prev ← Code.need (← readLinks (·.prev t))
    let next ← readLinks (·.next t)
    writeLinks (·.setNext prev next)
    let next ← Code.need (← readLinks (·.next t))
    let prev ← readLinks (·.prev t)
    writeLinks (·.setPrev next prev)
    let first ← readLinks (·.load list)
    if first = some t then
      let next ← readLinks (·.next t)
      writeLinks (·.store list next)
  writeLinks (·.setNext t none)
  writeLinks (·.setPrev t none)

/-- How `sbi_ipiSend` adds a node to the tasks. -/
def addTaskCode (node : Node) : HartCode η δ PUnit := do
  match ← readLinks (·.tasks) with
  | none => listAddCode .tasks node
  | some _ =>
    let tasks ← Code.need (← readLinks (·.tasks))
    listAddCode (.prev tasks) node

/-- `sbi_ipiSend` under the lock of the hart it sends to. -/
def sendCode (p : Post η δ) : HartCode η δ (Answer η δ) := do
  let poolMask ← .read (·.poolMask)
  if poolMask = 0 then return .sent SBI_IPI_RETRY
  else
    let poolMask ← .read (·.poolMask)
    let idx := getFirstBit (poolMask.setWidth 64)
    let poolMask ← .read (·.poolMask)
    .write fun s => { s with poolMask := poolMask &&& ~~~((1 : BitVec 16) <<< idx) }
    let node ← .need (if h : idx < MAX_TASK_COUNT then some ⟨idx, h⟩ else none)
    .write fun s =>
      { s with pool := Function.update s.pool node ⟨p.number, p.handler, (s.pool node).data⟩ }
    .write fun s =>
      { s with pool := Function.update s.pool node { s.pool node with data := p.data } }
    addTaskCode node
    return .sent SBI_SUCCESS

/-- The loop of `sbi_ipiHandler`, for at most `fuel` nodes. -/
def drainCode : Nat → Option Node → HartCode η δ (List (Post η δ))
  | 0, _ => .fail
  | _ + 1, none => return []
  | fuel + 1, some node => do
    listRemoveCode .tasks node
    let p ← .read fun s => s.pool node
    let poolMask ← .read (·.poolMask)
    .write fun s => { s with poolMask := poolMask ||| (1 : BitVec 16) <<< node.val }
    let ran ← drainCode fuel (← readLinks (·.tasks))
    return p.called ++ ran

/-- What a hart runs under a lock. -/
def ipiCode (fuel : Nat) : Request η δ → HartCode η δ (Answer η δ)
  | .send p => sendCode p
  | .handler => do
    let ran ← drainCode fuel (← readLinks (·.tasks))
    return .ran ran

/-- The machine of all harts with their locks. -/
abbrev IpiLocks (η δ : Type) := Locked Nat (Request η δ) (Hart η δ) (Answer η δ)

section Code
variable {s : Hart η δ}

@[simp] theorem run_readLinks {α : Type} (f : Links Node → α) :
    (readLinks f : HartCode η δ α).run s = some (s, f s.links) := rfl

@[simp] theorem run_writeLinks (f : Links Node → Links Node) :
    (writeLinks f : HartCode η δ PUnit).run s = some ({ s with links := f s.links }, ⟨⟩) := rfl

theorem run_listAddCode (list : Cell Node) (t : Node) :
    (listAddCode list t).run s =
      (listAdd s.links list t).map fun links => ({ s with links := links }, ⟨⟩) := by
  cases hload : s.links.load list with
  | none => simp [listAddCode, listAdd, hload]
  | some first =>
      simp only [listAddCode, listAdd, Code.run_bind, run_readLinks, run_writeLinks, Option.bind_some,
        hload, Code.run_need, Option.map_some, Option.bind_eq_bind]
      cases hload₁ : (s.links.setPrev t (s.links.prev first)).load list with
      | none => rfl
      | some first₁ =>
          simp only [Option.map_some, Option.bind_some]
          cases (s.links.setPrev t (s.links.prev first)).prev first₁ with
          | none => rfl
          | some prev =>
              simp only [Option.map_some, Option.bind_some]
              cases Links.load (Links.setNext _ t _) list with
              | none => rfl
              | some first₂ => rfl

theorem run_listRemoveCode (list : Cell Node) (t : Node) :
    (listRemoveCode list t).run s =
      (listRemove s.links list t).map fun links => ({ s with links := links }, ⟨⟩) := by
  by_cases hself : s.links.next t = some t ∧ s.links.prev t = some t
  · simp [listRemoveCode, listRemove, hself]
  · simp only [listRemoveCode, listRemove, Code.run_bind, run_readLinks, run_writeLinks,
      Option.bind_some, Option.bind_eq_bind, if_neg hself, Code.run_need]
    cases s.links.prev t with
    | none => rfl
    | some prev =>
        simp only [Option.map_some, Option.bind_some]
        cases (s.links.setNext prev (s.links.next t)).next t with
        | none => rfl
        | some next =>
            simp only [Option.map_some, Option.bind_some]
            split <;> rfl

theorem run_addTaskCode (node : Node) :
    (addTaskCode node).run s =
      (addTask s.links node).map fun links => ({ s with links := links }, ⟨⟩) := by
  simp only [addTaskCode, addTask, Code.run_bind, run_readLinks, Option.bind_some]
  cases htasks : s.links.tasks with
  | none => exact run_listAddCode .tasks node
  | some tasks =>
      simp only [Code.run_bind, run_readLinks, Option.bind_some, Code.run_need, htasks,
        Option.map_some]
      exact run_listAddCode (.prev tasks) node

/-- Run in one go, the code is what `Ipi` has. -/
theorem run_sendCode (p : Post η δ) :
    (sendCode p).run s = (s.send p).map fun r => (r.1, .sent r.2) := by
  by_cases hmask : s.poolMask = 0
  · simp [sendCode, Hart.send, hmask]
  · simp only [sendCode, Hart.send, Code.run_bind, Code.run_read, Option.bind_some, if_neg hmask,
      Code.run_write, Code.run_need, Option.bind_eq_bind]
    split
    · next hidx =>
      simp only [Option.map_some, Option.bind_some, run_addTaskCode, Function.update_idem,
        Function.update_self]
      cases addTask s.links _ <;> rfl
    · rfl

theorem run_drainCode (fuel : Nat) :
    (drainCode fuel s.links.tasks).run s = s.drain fuel := by
  induction fuel generalizing s with
  | zero => rfl
  | succ fuel ih =>
      rw [Hart.drain]
      cases htasks : s.links.tasks with
      | none => rfl
      | some node =>
          simp only [drainCode, Hart.take, Code.run_bind, run_listRemoveCode, Option.bind_eq_bind]
          cases listRemove s.links .tasks node with
          | none => rfl
          | some links =>
              simp only [Option.map_some, Option.bind_some, Code.run_read, Code.run_write,
                run_readLinks]
              have hrest := @ih ⟨s.poolMask ||| (1 : BitVec 16) <<< node.val, s.pool, links⟩
              simp only at hrest
              rw [hrest]
              cases Hart.drain fuel _ <;> rfl

theorem run_ipiCode_handler (fuel : Nat) :
    (ipiCode fuel .handler).run s = (s.drain fuel).map fun r => (r.1, .ran r.2) := by
  simp only [ipiCode, Code.run_bind, run_readLinks, Option.bind_some, run_drainCode]
  cases s.drain fuel <;> rfl

end Code

/-- A queue of sixteen places that is used by one call after another. -/
def serve (q : List (Post η δ)) : Request η δ → List (Post η δ) × Answer η δ
  | .send p =>
    if q.length < MAX_TASK_COUNT then (q ++ [p], .sent SBI_SUCCESS) else (q, .sent SBI_IPI_RETRY)
  | .handler => ([], .ran ((queueOrder q).flatMap Post.called))

/-- The calls, one after another, get these answers and leave this queue. -/
def Answered : List (Post η δ) → List (Entry (Request η δ) (Answer η δ)) → List (Post η δ) → Prop
  | q, [], q' => q' = q
  | q, e :: log, q' => e.result = (serve q e.op).2 ∧ Answered (serve q e.op).1 log q'

/-- The list of a hart holds the queue. -/
def HoldsQueue (s : Hart η δ) (q : List (Post η δ)) : Prop :=
  ∃ ns, Linked s (queueOrder ns) ∧ ns.map s.pool = q

section Queue
variable {s : Hart η δ} {q : List (Post η δ)} {fuel : Nat}

/-- A call that is run in one go does what the queue does. -/
theorem run_ipiCode (hfuel : MAX_TASK_COUNT < fuel) (h : HoldsQueue s q) (op : Request η δ) :
    ∃ s', (ipiCode fuel op).run s = some (s', (serve q op).2) ∧ HoldsQueue s' (serve q op).1 := by
  obtain ⟨ns, hlinked, rfl⟩ := h
  have hlen := (queueOrder_perm ns).length_eq
  have hle := length_le hlinked
  cases op with
  | send p =>
      simp only [ipiCode, run_sendCode, serve, List.length_map]
      split
      · next hroom =>
        obtain ⟨s', node, hsend, hlinked', hposts⟩ := send_queued hlinked hroom p
        exact ⟨s', by rw [hsend]; rfl, _, hlinked', hposts⟩
      · exact ⟨s, by rw [send_full hlinked (by omega)]; rfl, ns, hlinked, rfl⟩
  | handler =>
      obtain ⟨s', hdrain, hempty⟩ := drain_linked fuel hlinked (by omega)
      refine ⟨s', ?_, [], hempty, rfl⟩
      rw [run_ipiCode_handler, hdrain, map_queueOrder]
      rfl

theorem answered_of_history (hfuel : MAX_TASK_COUNT < fuel)
    {log : List (Entry (Request η δ) (Answer η δ))} {s' : Hart η δ} (h : HoldsQueue s q) (hlog : History (ipiCode fuel) s log s') :
    ∃ q', Answered q log q' ∧ HoldsQueue s' q' := by
  induction log generalizing s q with
  | nil => exact ⟨q, rfl, hlog ▸ h⟩
  | cons e log ih =>
      obtain ⟨s₁, hrun, hlog⟩ := hlog
      obtain ⟨s₂, hrun', hholds⟩ := run_ipiCode hfuel h e.op
      rw [hrun] at hrun'
      obtain ⟨rfl, hresult⟩ := Prod.mk.inj (Option.some.inj hrun')
      obtain ⟨q', hanswered, hq'⟩ := ih hholds hlog
      exact ⟨q', ⟨hresult, hanswered⟩, hq'⟩

end Queue

/-- In every interleaving of the accesses of any number of harts, one hart at most is in
the code under a lock, no call follows a NULL link, the calls that have returned have
been answered as by a queue that is used by one call after another, and a free lock's
list holds that queue. -/
theorem ipi_linearizable {fuel : Nat} (hfuel : MAX_TASK_COUNT < fuel)
    (pools : Nat → Fin MAX_TASK_COUNT → Post η δ) {s : IpiLocks η δ}
    (h : Reachable (Locked.step (ipiCode fuel)) (fun _ _ => True)
      (Locked.init fun k => Hart.init (pools k)) s) (hartid : Nat) :
    (∀ t t', s.Inside hartid t → s.Inside hartid t' → t = t') ∧
      (s.lock hartid = true ↔ ∃ t, s.Inside hartid t) ∧
      (∀ t op, s.thread t ≠ .inside hartid op .fail) ∧
      ∃ q, Answered [] (s.log hartid) q ∧ (s.lock hartid = false → HoldsQueue (s.data hartid) q) := by
  have hempty : ∀ k, HoldsQueue (Hart.init (pools k)) [] := fun k => ⟨[], linked_init (pools k), rfl⟩
  have htotal : Total (ipiCode fuel) fun s : Hart η δ => ∃ q, HoldsQueue s q := by
    rintro op d ⟨q, hq⟩
    obtain ⟨d', hrun, hq'⟩ := run_ipiCode hfuel hq op
    exact ⟨d', _, hrun, _, hq'⟩
  rcases linearizable htotal (fun k => ⟨[], hempty k⟩) h hartid with hfree | ⟨me, op, c, hheld⟩
  · obtain ⟨q, hanswered, hq⟩ := answered_of_history hfuel (hempty hartid) hfree.history
    refine ⟨fun t _ ht => absurd ht (hfree.empty t), iff_of_false ?_ ?_, ?_, q, hanswered, fun _ => hq⟩
    · rw [hfree.lock]
      exact Bool.false_ne_true
    · rintro ⟨t, ht⟩
      exact hfree.empty t ht
    · exact fun t op ht => hfree.empty t ⟨op, _, ht⟩
  · obtain ⟨d, r, hlog, hrun⟩ := hheld.history
    obtain ⟨d₁, hbefore, -⟩ := (history_concat _ _).mp hlog
    obtain ⟨q, hanswered, -⟩ := answered_of_history hfuel (hempty hartid) hbefore
    refine ⟨fun t t' ht ht' => (hheld.only t ht).trans (hheld.only t' ht').symm,
      iff_of_true hheld.lock ⟨me, op, c, hheld.inside⟩, ?_, q, hanswered, ?_⟩
    · intro t op' ht
      obtain rfl := hheld.only t ⟨op', _, ht⟩
      rw [hheld.inside] at ht
      cases ht
      cases hrun
    · intro hlock
      rw [hheld.lock] at hlock
      cases hlock

/-- Two harts post to a third one; the second caller gets the lock first. -/
def twoPostsSteps : List (LockStep Nat (Request Unit Unit)) :=
  [.call 0 1 (.send ⟨0, some (), ()⟩), .call 2 1 (.send ⟨1, none, ()⟩), .next 2, .next 0] ++
    List.replicate 13 (.next 2) ++ [.next 0]

def twoPosts : IpiLocks Unit Unit :=
  twoPostsSteps.foldl (Locked.step (ipiCode 17))
    (Locked.init fun _ => Hart.init fun _ => ⟨0, none, ()⟩)

theorem ipi_linearizable_two :
    (twoPosts.lock 1 = true ↔ ∃ t, twoPosts.Inside 1 t) ∧ ∃ q, Answered [] (twoPosts.log 1) q := by
  have hrun : Reachable (Locked.step (ipiCode 17)) (fun _ _ => True)
      (Locked.init fun _ => Hart.init fun _ => ⟨0, none, ()⟩) twoPosts :=
    .foldl .init _ fun _ _ _ => trivial
  obtain ⟨-, hlock, -, q, hanswered, -⟩ :=
    ipi_linearizable (by decide) (fun _ _ => ⟨0, none, ()⟩) hrun 1
  exact ⟨hlock, q, hanswered⟩

end Plo.Sbi
