import Mathlib.Data.List.Cycle

/-!
Nodes linked in a circle through two partial functions, as a list that names one
of them as its first. A node is put into the circle by relinking its two new
neighbours, and taken out by relinking them with each other; what happens to the
links of other nodes does not matter.
-/
namespace Plo
universe u
variable {ν : Type u} {next prev next' prev' : ν → Option ν}

/-- One node is followed by the other. -/
def Link (next prev : ν → Option ν) (a b : ν) : Prop := next a = some b ∧ prev b = some a

/-- The nodes of a list, each once, linked in a circle in this order. -/
structure Circle (next prev : ν → Option ν) (xs : List ν) : Prop where
  nodup : xs.Nodup
  chain : Cycle.Chain (Link next prev) (xs : Cycle ν)

theorem chain_cons_iff (r : ν → ν → Prop) (a : ν) (xs : List ν) :
    Cycle.Chain r (a :: xs : List ν) ↔
      (a :: xs).IsChain r ∧ ∀ z ∈ (a :: xs).getLast?, r z a := by
  rw [Cycle.chain_coe_cons, ← List.cons_append, List.isChain_append]
  simp

/-- A path keeps its links when only the end of it is linked on and only the
beginning of it is linked back anew. -/
theorem isChain_link_congr {xs : List ν} (hnodup : xs.Nodup)
    (hnext : ∀ x ∈ xs, xs.getLast? ≠ some x → next' x = next x)
    (hprev : ∀ x ∈ xs, xs.head? ≠ some x → prev' x = prev x)
    (h : xs.IsChain (Link next prev)) : xs.IsChain (Link next' prev') := by
  induction xs with
  | nil => exact List.isChain_nil
  | cons a xs ih =>
      cases xs with
      | nil => exact List.isChain_singleton a
      | cons b xs =>
          rw [List.nodup_cons] at hnodup
          rw [List.isChain_cons_cons] at h ⊢
          have hlast : (a :: b :: xs).getLast? = (b :: xs).getLast? := rfl
          refine ⟨⟨?_, ?_⟩, ih hnodup.2 ?_ ?_ h.2⟩
          · rw [hnext a List.mem_cons_self, h.1.1]
            intro heq
            rw [hlast] at heq
            exact hnodup.1 (List.mem_of_getLast? heq)
          · rw [hprev b (by simp), h.1.2]
            intro heq
            cases heq
            exact hnodup.1 List.mem_cons_self
          · intro x hx hne
            exact hnext x (List.mem_cons_of_mem a hx) hne
          · intro x hx _
            refine hprev x (List.mem_cons_of_mem a hx) ?_
            intro heq
            cases heq
            exact hnodup.1 hx

theorem Circle.nil : Circle next prev [] := ⟨List.nodup_nil, Cycle.Chain.nil _⟩

theorem Circle.singleton {a : ν} (hnext : next a = some a) (hprev : prev a = some a) :
    Circle next prev [a] :=
  ⟨List.nodup_singleton a, (Cycle.chain_singleton _ a).mpr ⟨hnext, hprev⟩⟩

/-- The same circle from another node on. -/
theorem circle_append_comm (xs ys : List ν) :
    Circle next prev (xs ++ ys) ↔ Circle next prev (ys ++ xs) := by
  have hcycle : ((xs ++ ys : List ν) : Cycle ν) = (ys ++ xs : List ν) :=
    Cycle.coe_eq_coe.mpr List.isRotated_append
  have hnodup : (xs ++ ys).Nodup ↔ (ys ++ xs).Nodup := List.perm_append_comm.nodup_iff
  constructor
  · intro h
    exact ⟨hnodup.mp h.nodup, hcycle ▸ h.chain⟩
  · intro h
    exact ⟨hnodup.mpr h.nodup, hcycle ▸ h.chain⟩

/-- The same circle from the second node on. -/
theorem circle_rotate (a : ν) (xs : List ν) :
    Circle next prev (a :: xs) ↔ Circle next prev (xs ++ [a]) :=
  circle_append_comm [a] xs

/-- The first node is preceded by the last one. -/
theorem Circle.prev_head {a z : ν} {xs : List ν} (h : Circle next prev (a :: xs))
    (hz : (a :: xs).getLast? = some z) : Link next prev z a :=
  ((chain_cons_iff _ a xs).mp h.chain).2 z hz

/-- A node inside the list is followed by the next one. -/
theorem Circle.next_inside {a b : ν} {xs ys : List ν} (h : Circle next prev (xs ++ a :: b :: ys)) :
    Link next prev a b := by
  rw [circle_append_comm] at h
  exact (List.isChain_cons_cons.mp ((chain_cons_iff _ a _).mp h.chain).1).1

/-- A new node between the last and the first. -/
theorem Circle.insert {a t z : ν} {xs : List ν} (h : Circle next prev (a :: xs))
    (hz : (a :: xs).getLast? = some z) (ht : t ∉ a :: xs)
    (hlast : Link next' prev' z t) (hfirst : Link next' prev' t a)
    (hnext : ∀ x ∈ a :: xs, x ≠ z → next' x = next x)
    (hprev : ∀ x ∈ a :: xs, x ≠ a → prev' x = prev x) :
    Circle next' prev' (a :: (xs ++ [t])) := by
  have hpath := ((chain_cons_iff _ a xs).mp h.chain).1
  refine ⟨?_, ?_⟩
  · rw [← List.cons_append, (List.perm_append_singleton t (a :: xs)).nodup_iff, List.nodup_cons]
    exact ⟨ht, h.nodup⟩
  · rw [chain_cons_iff, ← List.cons_append, List.isChain_append]
    refine ⟨⟨?_, List.isChain_singleton t, ?_⟩, ?_⟩
    · refine isChain_link_congr h.nodup ?_ ?_ hpath
      · intro x hx hne
        refine hnext x hx ?_
        intro heq
        exact hne (heq ▸ hz)
      · intro x hx hne
        refine hprev x hx ?_
        intro heq
        exact hne (heq ▸ rfl)
    · intro x hx y hy
      cases hx.symm.trans hz
      cases hy
      exact hlast
    · intro x hx
      rw [List.getLast?_concat] at hx
      cases hx
      exact hfirst

/-- The circle without its first node. -/
theorem Circle.remove {a b z : ν} {xs : List ν} (h : Circle next prev (a :: b :: xs))
    (hz : (b :: xs).getLast? = some z) (hlink : Link next' prev' z b)
    (hnext : ∀ x ∈ b :: xs, x ≠ z → next' x = next x)
    (hprev : ∀ x ∈ b :: xs, x ≠ b → prev' x = prev x) :
    Circle next' prev' (b :: xs) := by
  have hpath := ((chain_cons_iff _ a (b :: xs)).mp h.chain).1
  have hnodup := (List.nodup_cons.mp h.nodup).2
  refine ⟨hnodup, (chain_cons_iff _ b xs).mpr ⟨?_, ?_⟩⟩
  · refine isChain_link_congr hnodup ?_ ?_ (List.isChain_cons_cons.mp hpath).2
    · intro x hx hne
      refine hnext x hx ?_
      intro heq
      exact hne (heq ▸ hz)
    · intro x hx hne
      refine hprev x hx ?_
      intro heq
      exact hne (heq ▸ rfl)
  · intro x hx
    cases hx.symm.trans hz
    exact hlink

end Plo
