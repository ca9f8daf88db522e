import Mathlib.Data.Fintype.Card
import Plo.Sbi.Ipi

/-!
The task list of a hart over whole runs. Posts are linked before the last node of
the list, not behind it, so the list holds the second post last. Whatever is sent
and handled in whatever order, the list is a circle of the nodes whose bits are
clear, and a run of the handler runs every pending post once.
-/
namespace Plo.Sbi
variable {η δ : Type}

section FirstBit

/-- Some bit below `k` is set in the second component, and its bits are those of
`v` from the first one on. -/
def Shifted (v : BitVec 64) (k : Nat) (r : Nat × BitVec 64) : Prop :=
  (∃ i < k, r.2.getLsbD i = true) ∧ ∀ i, r.2.getLsbD i = v.getLsbD (r.1 + i)

theorem and_mask_eq_zero {n : Nat} {mask : BitVec 64}
    (hmask : ∀ i < 64, mask.getLsbD i = decide (i < n)) (x : BitVec 64) :
    x &&& mask = 0 ↔ ∀ i < n, x.getLsbD i = false := by
  constructor
  · intro h i hi
    have hbit : (x &&& mask).getLsbD i = false := by rw [h]; simp
    by_cases hlt : i < 64
    · simpa [BitVec.getLsbD_and, hmask i hlt, hi] using hbit
    · exact BitVec.getLsbD_of_ge _ _ (by omega)
  · intro h
    refine BitVec.eq_of_getLsbD_eq fun i hi => ?_
    rw [BitVec.getLsbD_and, hmask i hi]
    by_cases hlt : i < n
    · simp [h i hlt]
    · simp [hlt]

theorem shifted_skipZeros {v : BitVec 64} (n : Nat) (mask : BitVec 64)
    (hmask : ∀ i < 64, mask.getLsbD i = decide (i < n)) {r : Nat × BitVec 64}
    (h : Shifted v (n + n) r) : Shifted v n (skipZeros n mask r) := by
  obtain ⟨⟨i, hi, hset⟩, hbits⟩ := h
  simp only [skipZeros, and_mask_eq_zero hmask]
  by_cases hzero : ∀ i < n, r.2.getLsbD i = false
  · rw [if_pos hzero]
    have hge : n ≤ i := by
      by_contra hlt
      rw [hzero i (by omega)] at hset
      cases hset
    refine ⟨⟨i - n, by omega, ?_⟩, ?_⟩
    · rw [BitVec.getLsbD_ushiftRight, Nat.add_sub_cancel' hge, hset]
    · intro j
      rw [BitVec.getLsbD_ushiftRight, hbits, Nat.add_assoc]
  · rw [if_neg hzero]
    simp only [not_forall, Bool.not_eq_false] at hzero
    obtain ⟨j, hj, hset⟩ := hzero
    exact ⟨⟨j, hj, hset⟩, hbits⟩

/-- `sbi_getFirstBit` names a set bit. -/
theorem getLsbD_getFirstBit {v : BitVec 64} (hv : v ≠ 0) : v.getLsbD (getFirstBit v) = true := by
  have h64 : Shifted v 64 (0, v) := by
    refine ⟨?_, fun i => by rw [Nat.zero_add]⟩
    by_contra hnone
    refine hv (BitVec.eq_of_getLsbD_eq fun i hi => ?_)
    simp only [not_exists, not_and, Bool.not_eq_true] at hnone
    rw [hnone i hi]
    simp
  have h32 := shifted_skipZeros 32 0xffffffff (by decide) h64
  have h16 := shifted_skipZeros 16 0xffff (by decide) h32
  have h8 := shifted_skipZeros 8 0xff (by decide) h16
  have h4 := shifted_skipZeros 4 0xf (by decide) h8
  obtain ⟨⟨i, hi, hset⟩, hbits⟩ := shifted_skipZeros 2 0x3 (by decide) h4
  simp only [getFirstBit]
  generalize skipZeros 2 0x3 _ = r at hset hbits
  have hone : r.2 &&& 0x01 = 0 ↔ ∀ i < 1, r.2.getLsbD i = false :=
    and_mask_eq_zero (by decide) r.2
  by_cases hzero : r.2 &&& 0x01 = 0
  · rw [if_pos hzero, ← hbits]
    have h0 := hone.mp hzero 0 (by decide)
    have hi1 : i = 1 := by
      by_contra hne
      rw [show i = 0 by omega, h0] at hset
      cases hset
    rwa [← hi1]
  · rw [if_neg hzero, ← Nat.add_zero r.1, ← hbits]
    by_contra hclear
    refine hzero (hone.mpr fun j hj => ?_)
    rw [show j = 0 by omega]
    exact Bool.eq_false_iff.mpr hclear

end FirstBit

section List

/-- The order in which a list holds what was posted to it. -/
def queueOrder {α : Type} : List α → List α
  | a :: b :: rest => a :: (rest ++ [b])
  | xs => xs

theorem queueOrder_perm {α : Type} (xs : List α) : (queueOrder xs).Perm xs := by
  match xs with
  | [] => exact .refl _
  | [a] => exact .refl _
  | a :: b :: rest => exact .cons a (List.perm_append_singleton b rest)

theorem head?_queueOrder {α : Type} (xs : List α) : (queueOrder xs).head? = xs.head? := by
  match xs with
  | [] => rfl
  | [a] => rfl
  | a :: b :: rest => rfl

theorem map_queueOrder {α β : Type} (f : α → β) (xs : List α) :
    (queueOrder xs).map f = queueOrder (xs.map f) := by
  match xs with
  | [] => rfl
  | [a] => rfl
  | a :: b :: rest => simp [queueOrder]

/-- Every list is the order of some posts. -/
theorem exists_queueOrder {α : Type} (xs : List α) : ∃ ns, queueOrder ns = xs := by
  match xs with
  | [] => exact ⟨[], rfl⟩
  | a :: rest =>
      cases List.eq_nil_or_concat rest with
      | inl hnil => exact ⟨[a], by rw [hnil]; rfl⟩
      | inr hlast =>
          obtain ⟨init, b, rfl⟩ := hlast
          exact ⟨a :: b :: init, by simp [queueOrder]⟩

end List

/-- The task list of a hart runs through these nodes, and they are the ones in use. -/
structure Linked (s : Hart η δ) (xs : List (Fin MAX_TASK_COUNT)) : Prop where
  circle : Circle s.links.next s.links.prev xs
  first : s.links.tasks = xs.head?
  mask : ∀ n : Fin MAX_TASK_COUNT, s.poolMask.getLsbD n = false ↔ n ∈ xs

section Hart
variable {s : Hart η δ} {xs ns : List (Fin MAX_TASK_COUNT)}

theorem linked_init (pool : Fin MAX_TASK_COUNT → Post η δ) : Linked (Hart.init pool) [] := by
  refine ⟨Circle.nil, rfl, ?_⟩
  intro n
  have hset : ∀ n : Fin 16, (0xffff : BitVec 16).getLsbD n = true := by decide
  exact iff_of_false (by simp only [Hart.init, hset n, Bool.true_eq_false, not_false_iff])
    List.not_mem_nil

theorem poolMask_eq_zero (h : Linked s xs) : s.poolMask = 0 ↔ xs.length = MAX_TASK_COUNT := by
  have hall : s.poolMask = 0 ↔ ∀ n : Fin MAX_TASK_COUNT, n ∈ xs := by
    constructor
    · intro hzero n
      rw [← h.mask, hzero]
      simp
    · intro hmem
      refine BitVec.eq_of_getLsbD_eq fun i hi => ?_
      rw [(h.mask ⟨i, hi⟩).mpr (hmem _)]
      simp
  have hcard : xs.toFinset.card = xs.length := List.toFinset_card_of_nodup h.circle.nodup
  rw [hall, ← hcard]
  constructor
  · intro hmem
    have huniv : xs.toFinset = Finset.univ := by
      ext n
      simp [hmem n]
    rw [huniv, Finset.card_univ, Fintype.card_fin]
  · intro hfull n
    have huniv := (Finset.card_eq_iff_eq_univ xs.toFinset).mp
      (by rw [hfull, Fintype.card_fin])
    rw [← List.mem_toFinset, huniv]
    exact Finset.mem_univ n

theorem length_le (h : Linked s xs) : xs.length ≤ MAX_TASK_COUNT := by
  have := h.circle.nodup.length_le_card
  rwa [Fintype.card_fin] at this

theorem getLsbD_one_shiftLeft (n i : Fin MAX_TASK_COUNT) :
    ((1 : BitVec 16) <<< n.val).getLsbD i.val = decide (i = n) := by
  have hbit : ∀ n i : Fin 16, ((1 : BitVec 16) <<< n.val).getLsbD i.val = decide (i = n) := by
    decide
  exact hbit n i

/-- The node that is taken for a post is a free one. -/
theorem firstBit_node (h : Linked s xs) (hmask : s.poolMask ≠ 0) :
    ∃ node : Fin MAX_TASK_COUNT, getFirstBit (s.poolMask.setWidth 64) = node.val ∧ node ∉ xs := by
  have hwide : s.poolMask.setWidth 64 ≠ 0 := by
    intro hzero
    refine hmask (BitVec.eq_of_getLsbD_eq fun i hi => ?_)
    have hbit : (s.poolMask.setWidth 64).getLsbD i = false := by rw [hzero]; simp
    rw [BitVec.getLsbD_setWidth, decide_eq_true (by omega), Bool.true_and] at hbit
    rw [hbit]
    simp
  have hset := getLsbD_getFirstBit hwide
  rw [BitVec.getLsbD_setWidth, Bool.and_eq_true] at hset
  have hlt : getFirstBit (s.poolMask.setWidth 64) < MAX_TASK_COUNT := by
    by_contra hge
    rw [BitVec.getLsbD_of_ge _ _ (Nat.le_of_not_lt hge)] at hset
    exact absurd hset.2 (by simp)
  refine ⟨⟨_, hlt⟩, rfl, ?_⟩
  rw [← h.mask, hset.2]
  simp

/-- The new node goes before the last one of the list, and behind a single one. -/
theorem addTask_queueOrder (h : Linked s (queueOrder ns)) {node : Fin MAX_TASK_COUNT}
    (hnode : node ∉ ns) :
    ∃ links, addTask s.links node = some links ∧
      Circle links.next links.prev (queueOrder (ns ++ [node])) ∧
      links.tasks = (ns ++ [node]).head? := by
  have hfirst := h.first
  rw [head?_queueOrder] at hfirst
  have hcircle := h.circle
  simp only [addTask]
  match ns with
  | [] =>
      obtain ⟨links, hadd, hnew, htasks⟩ := listAdd_empty s.links node hfirst
      rw [hfirst]
      exact ⟨links, hadd, hnew, htasks⟩
  | [a] =>
      have hself : Link s.links.next s.links.prev a a := hcircle.prev_head rfl
      obtain ⟨links, hadd, hnew, htasks⟩ := listAdd_before (.prev a) (t := node)
        hself.2 (by simpa [eq_comm] using hnode) hcircle hnode
      rw [hfirst]
      exact ⟨links, hadd, hnew, htasks.trans hfirst⟩
  | a :: b :: rest =>
      have hlast : Link s.links.next s.links.prev b a :=
        hcircle.prev_head (by rw [← List.cons_append, List.getLast?_concat])
      have hrotated := (circle_rotate b (a :: rest)).mpr hcircle
      have hnew' : node ∉ b :: a :: rest := by
        simp only [List.mem_cons, not_or] at hnode ⊢
        exact ⟨hnode.2.1, hnode.1, hnode.2.2⟩
      have hother : Cell.prev a ≠ Cell.prev node := by
        intro heq
        cases heq
        exact hnode List.mem_cons_self
      obtain ⟨links, hadd, hnew, htasks⟩ := listAdd_before (.prev a) hlast.2 hother
        hrotated hnew'
      rw [hfirst]
      exact ⟨links, hadd, (circle_rotate b (a :: rest ++ [node])).mp hnew, htasks.trans hfirst⟩

theorem send_full (h : Linked s xs) (hfull : xs.length = MAX_TASK_COUNT) (p : Post η δ) :
    s.send p = some (s, SBI_IPI_RETRY) := by
  rw [Hart.send, if_pos ((poolMask_eq_zero h).mpr hfull)]

theorem send_queued (h : Linked s (queueOrder ns)) (hroom : ns.length < MAX_TASK_COUNT)
    (p : Post η δ) :
    ∃ s' node, s.send p = some (s', SBI_SUCCESS) ∧ Linked s' (queueOrder (ns ++ [node])) ∧
      (ns ++ [node]).map s'.pool = ns.map s.pool ++ [p] := by
  have hlen := (queueOrder_perm ns).length_eq
  have hmask : s.poolMask ≠ 0 := by
    intro hzero
    have := (poolMask_eq_zero h).mp hzero
    omega
  obtain ⟨node, hidx, hfree⟩ := firstBit_node h hmask
  rw [(queueOrder_perm ns).mem_iff] at hfree
  obtain ⟨links, hadd, hcircle, htasks⟩ := addTask_queueOrder h hfree
  refine ⟨⟨s.poolMask &&& ~~~((1 : BitVec 16) <<< node.val), Function.update s.pool node p, links⟩,
    node, ?_, ⟨hcircle, ?_, ?_⟩, ?_⟩
  · simp only [Hart.send, if_neg hmask, hidx, dif_pos node.isLt, Option.bind_eq_bind,
      Option.bind_some, Fin.eta, hadd]
  · rw [head?_queueOrder, htasks]
  · intro n
    rw [(queueOrder_perm _).mem_iff, List.mem_append, List.mem_singleton,
      ← (queueOrder_perm ns).mem_iff, ← h.mask]
    simp only [BitVec.getLsbD_and, BitVec.getLsbD_not, getLsbD_one_shiftLeft]
    rw [decide_eq_true n.isLt]
    cases s.poolMask.getLsbD n.val with
    | false => simp
    | true => simp
  · have hkeep : ns.map (Function.update s.pool node p) = ns.map s.pool := by
      refine List.map_congr_left fun n hn => Function.update_of_ne ?_ _ _
      exact fun heq => hfree (heq ▸ hn)
    simp only [List.map_append, hkeep, List.map_singleton, Function.update_self]

/-- A turn of the handler takes the head of the list. -/
theorem take_linked {a : Fin MAX_TASK_COUNT} (h : Linked s (a :: xs)) :
    ∃ s', s.take a = some (s', s.pool a) ∧ Linked s' xs ∧ s'.pool = s.pool := by
  obtain ⟨links, hrun, hcircle, htasks⟩ := listRemove_head h.first h.circle
  have hnodup := (List.nodup_cons.mp h.circle.nodup).1
  refine ⟨⟨s.poolMask ||| (1 : BitVec 16) <<< a.val, s.pool, links⟩, ?_,
    ⟨hcircle, htasks, fun n => ?_⟩, rfl⟩
  · simp only [Hart.take, hrun, Option.bind_eq_bind, Option.bind_some]
  · have hmask := h.mask n
    simp only [BitVec.getLsbD_or, getLsbD_one_shiftLeft, Bool.or_eq_false_iff,
      decide_eq_false_iff_not, hmask, List.mem_cons]
    constructor
    · intro hn
      exact hn.1.resolve_left hn.2
    · intro hn
      exact ⟨Or.inr hn, fun heq => hnodup (heq ▸ hn)⟩

/-- The handler takes the list apart from its head on and runs every task of it. -/
theorem drain_linked (fuel : Nat) (h : Linked s xs) (hfuel : xs.length < fuel) :
    ∃ s', s.drain fuel = some (s', (xs.map s.pool).flatMap Post.called) ∧ Linked s' [] := by
  induction xs generalizing s fuel with
  | nil =>
      obtain ⟨fuel, rfl⟩ := Nat.exists_eq_add_of_lt hfuel
      refine ⟨s, ?_, h⟩
      simp only [Hart.drain, h.first]
      rfl
  | cons a xs ih =>
      cases fuel with
      | zero => cases hfuel
      | succ fuel =>
          obtain ⟨s₁, htake, hlinked, hpool⟩ := take_linked h
          obtain ⟨s', hdrain, hend⟩ := ih fuel hlinked (by simpa using hfuel)
          refine ⟨s', ?_, hend⟩
          simp only [Hart.drain, h.first, List.head?_cons, htake, Option.bind_eq_bind,
            Option.bind_some, hdrain, hpool]
          rfl

end Hart

/-- A task that waits in a node of the hart. -/
def Hart.Holds (s : Hart η δ) (p : Post η δ) : Prop :=
  ∃ n : Fin MAX_TASK_COUNT, s.poolMask.getLsbD n = false ∧ s.pool n = p

section Holds
variable {s : Hart η δ} {xs : List (Fin MAX_TASK_COUNT)}

theorem holds_iff (h : Linked s xs) (p : Post η δ) : s.Holds p ↔ p ∈ xs.map s.pool := by
  simp only [Hart.Holds, h.mask, List.mem_map]

theorem not_holds (h : Linked s xs) (htasks : s.links.tasks = none) (p : Post η δ) :
    ¬ s.Holds p := by
  rw [h.first, List.head?_eq_none_iff] at htasks
  rw [holds_iff h, htasks]
  exact List.not_mem_nil

/-- A post is held with the others, or is to be made again. -/
theorem send_holds (h : Linked s xs) (p : Post η δ) :
    s.send p = some (s, SBI_IPI_RETRY) ∨
      ∃ s' xs', s.send p = some (s', SBI_SUCCESS) ∧ Linked s' xs' ∧
        ∀ q, s'.Holds q ↔ s.Holds q ∨ q = p := by
  obtain ⟨ns, rfl⟩ := exists_queueOrder xs
  have hle := length_le h
  have hlen := (queueOrder_perm ns).length_eq
  by_cases hroom : ns.length < MAX_TASK_COUNT
  · obtain ⟨s', node, hsend, hlinked, hposts⟩ := send_queued h hroom p
    refine Or.inr ⟨s', _, hsend, hlinked, fun q => ?_⟩
    rw [holds_iff hlinked, holds_iff h, ((queueOrder_perm _).map _).mem_iff,
      ((queueOrder_perm _).map _).mem_iff, hposts, List.mem_append, List.mem_singleton]
  · exact Or.inl (send_full h (by omega) p)

/-- A turn of the handler takes one of the tasks that wait. -/
theorem take_holds (h : Linked s xs) {node : Fin MAX_TASK_COUNT}
    (htasks : s.links.tasks = some node) :
    ∃ s' p xs', s.take node = some (s', p) ∧ Linked s' xs' ∧ xs.length = xs'.length + 1 ∧
      ∀ q, s.Holds q ↔ q = p ∨ s'.Holds q := by
  rw [h.first] at htasks
  cases xs with
  | nil => cases htasks
  | cons a xs =>
      cases htasks
      obtain ⟨s', htake, hlinked, hpool⟩ := take_linked h
      refine ⟨s', s.pool node, xs, htake, hlinked, rfl, fun q => ?_⟩
      rw [holds_iff h, holds_iff hlinked, hpool, List.map_cons, List.mem_cons]

end Holds
end Plo.Sbi
