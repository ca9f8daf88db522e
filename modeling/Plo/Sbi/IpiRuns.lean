import Plo.Sbi.IpiQueue

/-!
What holds of the task lists in every run of calls on all harts: no call ever
follows a NULL link or fails to end, every post that was accepted is run once by
the next handler run of its hart, and a post is refused only when the pool is
used up. The order in which the posts are run is that in which they were made
only as long as nothing is linked before a second one.
-/
namespace Plo.Sbi
variable {η δ : Type}

/-- States reached by any calls on any harts; `none` stands for a failed one. -/
def IpiReachable (fuel : Nat) (pools : Nat → Fin MAX_TASK_COUNT → Post η δ) :
    Option (Posting η δ) → Prop :=
  Reachable (fun s i => s.bind (·.step fuel i)) (fun _ _ => True) (some (Posting.init pools))

/-- The nodes of a hart hold its pending posts, which are numbered as they were
made, below `posted`. -/
structure HoldsPosts (posted : Nat) (hart : Hart η δ) (pending : List (Post η δ)) : Prop where
  linked : ∃ ns, Linked hart (queueOrder ns) ∧ pending = ns.map hart.pool
  numbered : pending.Pairwise (fun p p' => p.number < p'.number)
  numbers_lt : ∀ p ∈ pending, p.number < posted

def Consistent (s : Posting η δ) : Prop := ∀ h, HoldsPosts s.posted (s.harts h) (s.pending h)

theorem holdsPosts_nil (posted : Nat) {hart : Hart η δ} (h : Linked hart []) :
    HoldsPosts posted hart [] :=
  ⟨⟨[], h, rfl⟩, .nil, fun _ hp => nomatch hp⟩

theorem HoldsPosts.mono {posted posted' : Nat} {hart : Hart η δ} {pending : List (Post η δ)}
    (h : HoldsPosts posted hart pending) (hle : posted ≤ posted') :
    HoldsPosts posted' hart pending :=
  ⟨h.linked, h.numbered, fun p hp => Nat.lt_of_lt_of_le (h.numbers_lt p hp) hle⟩

theorem consistent_init (pools : Nat → Fin MAX_TASK_COUNT → Post η δ) :
    Consistent (Posting.init pools) :=
  fun h => holdsPosts_nil 0 (linked_init (pools h))

/-- A call on one hart leaves the others as they are. -/
theorem consistent_update {s : Posting η δ} (h : Consistent s) {posted k : Nat}
    {hart : Hart η δ} {pending : List (Post η δ)} (hle : s.posted ≤ posted)
    (hnew : HoldsPosts posted hart pending) :
    Consistent ⟨Function.update s.harts k hart, Function.update s.pending k pending, posted⟩ := by
  intro j
  by_cases hj : j = k
  · subst hj
    simp only [Function.update_self]
    exact hnew
  · simp only [Function.update_of_ne hj]
    exact (h j).mono hle

section Step
variable {s : Posting η δ}

theorem ipiSend_full (h : Consistent s) {me hartid : Nat} (hne : hartid ≠ me)
    (hfull : ¬ (s.pending hartid).length < MAX_TASK_COUNT) (p : Post η δ) :
    ipiSend s.harts me hartid p = some (s.harts, SBI_IPI_RETRY, []) := by
  obtain ⟨ns, hlinked, hpending⟩ := (h hartid).linked
  have hle := length_le hlinked
  rw [hpending, List.length_map, ← (queueOrder_perm ns).length_eq] at hfull
  simp only [ipiSend, if_neg hne, send_full hlinked (by omega) p, Option.bind_eq_bind,
    Option.bind_some, Function.update_eq_self]

theorem ipiSend_queued (h : Consistent s) {me hartid : Nat} (hne : hartid ≠ me)
    (hroom : (s.pending hartid).length < MAX_TASK_COUNT) (p : Post η δ) :
    ∃ hart ns, ipiSend s.harts me hartid p =
        some (Function.update s.harts hartid hart, SBI_SUCCESS, []) ∧
      Linked hart (queueOrder ns) ∧ s.pending hartid ++ [p] = ns.map hart.pool := by
  obtain ⟨ns, hlinked, hpending⟩ := (h hartid).linked
  rw [hpending, List.length_map] at hroom
  obtain ⟨hart, node, hsend, hnew, hposts⟩ := send_queued hlinked hroom p
  refine ⟨hart, ns ++ [node], ?_, hnew, ?_⟩
  · simp only [ipiSend, if_neg hne, hsend, Option.bind_eq_bind, Option.bind_some]
  · rw [hpending, hposts]

theorem flatMap_called (posts : List (Post η δ)) :
    posts.flatMap Post.called = posts.filter (·.handler.isSome) := by
  induction posts with
  | nil => rfl
  | cons p posts ih =>
      rw [List.flatMap_cons, ih, List.filter_cons, Post.called]
      split <;> rfl

/-- A run of the handler runs the pending posts in the order of the list. -/
theorem ipiHandler_runs (h : Consistent s) {fuel : Nat} (hfuel : MAX_TASK_COUNT < fuel)
    (hartid : Nat) :
    ∃ hart, ipiHandler fuel s.harts hartid = some (Function.update s.harts hartid hart,
        (queueOrder (s.pending hartid)).filter (·.handler.isSome)) ∧ Linked hart [] := by
  obtain ⟨ns, hlinked, hpending⟩ := (h hartid).linked
  have hle := length_le hlinked
  obtain ⟨hart, hdrain, hempty⟩ := drain_linked fuel hlinked (by omega)
  refine ⟨hart, ?_, hempty⟩
  rw [map_queueOrder, flatMap_called, ← hpending] at hdrain
  simp only [ipiHandler, hdrain, Option.bind_eq_bind, Option.bind_some]

theorem consistent_step (h : Consistent s) {fuel : Nat} (hfuel : MAX_TASK_COUNT < fuel)
    (i : IpiStep η δ) : ∃ s', s.step fuel i = some s' ∧ Consistent s' := by
  cases i with
  | send me hartid handler data =>
      by_cases hself : hartid = me
      · refine ⟨⟨s.harts, s.pending, s.posted + 1⟩, ?_, fun k => (h k).mono (Nat.le_succ _)⟩
        simp [Posting.step, ipiSend, hself]
      by_cases hroom : (s.pending hartid).length < MAX_TASK_COUNT
      · obtain ⟨hart, ns, hsend, hlinked, hposts⟩ :=
          ipiSend_queued h hself hroom ⟨s.posted, handler, data⟩
        have hstep : s.step fuel (.send me hartid handler data) =
            some ⟨Function.update s.harts hartid hart,
              Function.update s.pending hartid (s.pending hartid ++ [⟨s.posted, handler, data⟩]),
              s.posted + 1⟩ := by
          simp [Posting.step, hsend, hself]
        refine ⟨_, hstep, consistent_update h (Nat.le_succ _) ⟨⟨ns, hlinked, hposts⟩, ?_, ?_⟩⟩
        · rw [List.pairwise_append]
          refine ⟨(h hartid).numbered, List.pairwise_singleton _ _, ?_⟩
          intro p hp p' hp'
          rw [List.mem_singleton.mp hp']
          exact (h hartid).numbers_lt p hp
        · intro p hp
          cases List.mem_append.mp hp with
          | inl hp => exact Nat.lt_succ_of_lt ((h hartid).numbers_lt p hp)
          | inr hp =>
              rw [List.mem_singleton.mp hp]
              exact Nat.lt_succ_self _
      · have hsend := ipiSend_full h hself hroom ⟨s.posted, handler, data⟩
        refine ⟨⟨s.harts, s.pending, s.posted + 1⟩, ?_, fun k => (h k).mono (Nat.le_succ _)⟩
        simp [Posting.step, hsend, SBI_IPI_RETRY, SBI_SUCCESS]
  | handler hartid =>
      obtain ⟨hart, hrun, hempty⟩ := ipiHandler_runs h hfuel hartid
      refine ⟨_, ?_, consistent_update (k := hartid) h (Nat.le_refl _) (holdsPosts_nil _ hempty)⟩
      simp only [Posting.step, hrun, Option.bind_eq_bind, Option.bind_some]

theorem consistent_reachable {fuel : Nat} (hfuel : MAX_TASK_COUNT < fuel)
    {pools : Nat → Fin MAX_TASK_COUNT → Post η δ} {state : Option (Posting η δ)}
    (h : IpiReachable fuel pools state) : ∃ s, state = some s ∧ Consistent s := by
  refine h.invariant (I := fun state => ∃ s, state = some s ∧ Consistent s)
    ⟨_, rfl, consistent_init pools⟩ ?_
  intro state i hs _
  obtain ⟨s, rfl, hs⟩ := hs
  exact consistent_step hs hfuel i

end Step

/-- What holds of the task list of one hart between two calls. -/
structure Served (fuel : Nat) (s : Posting η δ) (hartid : Nat) : Prop where
  linked : ∃ xs, Linked (s.harts hartid) xs ∧ xs.length = (s.pending hartid).length
  numbered : ((s.pending hartid).map (·.number)).Nodup
  send : ∀ me ≠ hartid, ∀ p : Post η δ, ∃ harts, ipiSend s.harts me hartid p =
    some (harts, if (s.pending hartid).length < MAX_TASK_COUNT then SBI_SUCCESS else SBI_IPI_RETRY,
      [])
  self : ∀ p : Post η δ, ipiSend s.harts hartid hartid p = some (s.harts, SBI_SUCCESS, p.called)
  handler : ∃ harts ran, ipiHandler fuel s.harts hartid = some (harts, ran) ∧
    ran.Perm ((s.pending hartid).filter (·.handler.isSome)) ∧ Linked (harts hartid) []

theorem HoldsPosts.numbers_nodup {posted : Nat} {hart : Hart η δ} {pending : List (Post η δ)}
    (h : HoldsPosts posted hart pending) : (pending.map (·.number)).Nodup :=
  List.pairwise_map.mpr (h.numbered.imp Nat.ne_of_lt)

/-- In every run of posts and handler runs on any harts, each call ends, each task
list is a circle of the nodes whose bits are clear, each accepted post is run once
by the next handler run, and only the seventeenth pending post is refused. -/
theorem posts_are_run_once (fuel : Nat) (hfuel : MAX_TASK_COUNT < fuel)
    (pools : Nat → Fin MAX_TASK_COUNT → Post η δ) (state : Option (Posting η δ))
    (hreach : IpiReachable fuel pools state) :
    ∃ s, state = some s ∧ ∀ hartid, Served fuel s hartid := by
  obtain ⟨s, rfl, h⟩ := consistent_reachable hfuel hreach
  refine ⟨s, rfl, fun hartid => ⟨?_, (h hartid).numbers_nodup, ?_, ?_, ?_⟩⟩
  · obtain ⟨ns, hlinked, hpending⟩ := (h hartid).linked
    refine ⟨_, hlinked, ?_⟩
    rw [(queueOrder_perm ns).length_eq, hpending, List.length_map]
  · intro me hne p
    by_cases hroom : (s.pending hartid).length < MAX_TASK_COUNT
    · obtain ⟨hart, ns, hsend, -⟩ := ipiSend_queued h (Ne.symm hne) hroom p
      exact ⟨_, by rw [hsend, if_pos hroom]⟩
    · exact ⟨_, by rw [ipiSend_full h (Ne.symm hne) hroom p, if_neg hroom]⟩
  · intro p
    simp only [ipiSend, if_pos]
  · obtain ⟨hart, hrun, hempty⟩ := ipiHandler_runs h hfuel hartid
    refine ⟨_, _, hrun, (queueOrder_perm _).filter _, ?_⟩
    rw [Function.update_self]
    exact hempty

/-- A post from hart 1 to hart 0 after nothing else. -/
theorem posts_are_run_once_one :
    ∃ s : Posting Unit Nat,
      (some (Posting.init fun _ _ => ⟨0, none, 0⟩)).bind (·.step 17 (.send 1 0 (some ()) 5)) =
        some s ∧ ∀ hartid, Served 17 s hartid :=
  posts_are_run_once 17 (by decide) (fun _ _ => ⟨0, none, 0⟩) _ (.step .init trivial)

/-- The posts whose order cannot be seen to change: the second one has no handler,
or none of those after it has one. -/
def KeepsOrder : List (Post η δ) → Prop
  | _ :: p :: rest => p.handler = none ∨ ∀ p' ∈ rest, p'.handler = none
  | _ => True

theorem filter_queueOrder_iff {pending : List (Post η δ)}
    (hdistinct : (pending.map (·.number)).Nodup) :
    (queueOrder pending).filter (·.handler.isSome) = pending.filter (·.handler.isSome) ↔
      KeepsOrder pending := by
  match pending with
  | [] => exact iff_of_true rfl trivial
  | [p] => exact iff_of_true rfl trivial
  | a :: p :: rest =>
      simp only [List.map_cons, List.nodup_cons, List.mem_map, not_exists, not_and] at hdistinct
      have hcancel : (queueOrder (a :: p :: rest)).filter (·.handler.isSome) =
            (a :: p :: rest).filter (·.handler.isSome) ↔
          rest.filter (·.handler.isSome) ++ [p].filter (·.handler.isSome) =
            [p].filter (·.handler.isSome) ++ rest.filter (·.handler.isSome) := by
        rw [← List.filter_append, ← List.filter_append]
        have hhead (l : List (Post η δ)) : (a :: l).filter (·.handler.isSome) =
            [a].filter (·.handler.isSome) ++ l.filter (·.handler.isSome) := by
          rw [← List.filter_append, List.singleton_append]
        rw [queueOrder, hhead, hhead (p :: rest), List.append_cancel_left_eq]
        rfl
      rw [hcancel, KeepsOrder]
      cases hp : p.handler with
      | none => simp [hp]
      | some f =>
          have hone : [p].filter (·.handler.isSome) = [p] := by simp [hp]
          rw [hone]
          cases hrest : rest.filter (·.handler.isSome) with
          | nil =>
              refine iff_of_true rfl (Or.inr fun p' hp' => ?_)
              have hnot := List.filter_eq_nil_iff.mp hrest p' hp'
              simpa using hnot
          | cons c cs =>
              have hc : c ∈ rest ∧ c.handler.isSome := by
                have hmem : c ∈ rest.filter (·.handler.isSome) := hrest ▸ List.mem_cons_self
                exact List.mem_filter.mp hmem
              refine iff_of_false ?_ ?_
              · intro heq
                rw [List.cons_append, List.singleton_append] at heq
                have hcp := (List.cons.inj heq).1
                exact hdistinct.2.1 c hc.1 (hcp ▸ rfl)
              · intro hkeeps
                cases hkeeps with
                | inl h => cases h
                | inr h =>
                    rw [h c hc.1] at hc
                    exact absurd hc.2 (by simp)

/-- In every run, the next handler run of a hart runs the pending posts in the order
in which they were made exactly when no post with a handler follows a second one
with a handler. -/
theorem posts_are_run_in_order_iff (fuel : Nat) (hfuel : MAX_TASK_COUNT < fuel)
    (pools : Nat → Fin MAX_TASK_COUNT → Post η δ) (state : Option (Posting η δ))
    (hreach : IpiReachable fuel pools state) (hartid : Nat) :
    ∃ s harts ran, state = some s ∧ ipiHandler fuel s.harts hartid = some (harts, ran) ∧
      (ran = (s.pending hartid).filter (·.handler.isSome) ↔ KeepsOrder (s.pending hartid)) := by
  obtain ⟨s, rfl, h⟩ := consistent_reachable hfuel hreach
  obtain ⟨hart, hrun, -⟩ := ipiHandler_runs h hfuel hartid
  exact ⟨s, _, _, rfl, hrun, filter_queueOrder_iff (h hartid).numbers_nodup⟩

/-- Posts from hart 1 to hart 0, all with a handler. -/
def manyPosts (n : Nat) : Option (Posting Unit Nat) :=
  ((List.range n).map (IpiStep.send 1 0 (some ()))).foldl (fun s i => s.bind (·.step 17 i))
    (some (Posting.init fun _ _ => ⟨0, none, 0⟩))

theorem posts_are_run_in_order_iff_two :
    ∃ s harts ran, manyPosts 2 = some s ∧ ipiHandler 17 s.harts 0 = some (harts, ran) ∧
      (ran = (s.pending 0).filter (·.handler.isSome) ↔ KeepsOrder (s.pending 0)) :=
  posts_are_run_in_order_iff 17 (by decide) (fun _ _ => ⟨0, none, 0⟩) (manyPosts 2)
    (Reachable.init.foldl _ fun _ _ _ => trivial) 0

/-- Three posts: the second is run last. -/
theorem second_post_run_last :
    ((manyPosts 3).map fun s => (s.pending 0).map (·.number)) = some [0, 1, 2] ∧
      ((manyPosts 3).bind fun s => (ipiHandler 17 s.harts 0).map fun r => r.2.map (·.number)) =
        some [0, 2, 1] := by
  decide

end Plo.Sbi
