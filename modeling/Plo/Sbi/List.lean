import Plo.Base.Links

/-!
The doubly linked lists of the SBI. A list is the word that points to its first
node; the callers pass the address of the list itself or of a link field. A link
that is NULL and is followed makes an operation fail here.
-/
namespace Plo.Sbi
variable {ν : Type} [DecidableEq ν]

/-- The link fields of the nodes, and the list that starts in `tasks`. -/
structure Links (ν : Type) where
  next : ν → Option ν
  prev : ν → Option ν
  tasks : Option ν

/-- The words that are passed as a list. -/
inductive Cell (ν : Type)
  | tasks
  | prev (node : ν)

def Links.load (m : Links ν) : Cell ν → Option ν
  | .tasks => m.tasks
  | .prev node => m.prev node

def Links.setNext (m : Links ν) (node : ν) (link : Option ν) : Links ν :=
  { m with next := Function.update m.next node link }

def Links.setPrev (m : Links ν) (node : ν) (link : Option ν) : Links ν :=
  { m with prev := Function.update m.prev node link }

def Links.store (m : Links ν) (list : Cell ν) (link : Option ν) : Links ν :=
  match list with
  | .tasks => { m with tasks := link }
  | .prev node => m.setPrev node link

def listAdd (m : Links ν) (list : Cell ν) (t : ν) : Option (Links ν) :=
  match m.load list with
  | none => some (((m.setNext t (some t)).setPrev t (some t)).store list (some t))
  | some first => do
    let m := m.setPrev t (m.prev first)
    let first ← m.load list
    let prev ← m.prev first
    let m := m.setNext prev (some t)
    let m := m.setNext t (m.load list)
    let first ← m.load list
    some (m.setPrev first (some t))

def listRemove (m : Links ν) (list : Cell ν) (t : ν) : Option (Links ν) := do
  let m ←
    if m.next t = some t ∧ m.prev t = some t then some (m.store list none)
    else do
      let prev ← m.prev t
      let m := m.setNext prev (m.next t)
      let next ← m.next t
      let m := m.setPrev next (m.prev t)
      if m.load list = some t then some (m.store list (m.next t)) else some m
  some ((m.setNext t none).setPrev t none)

theorem listAdd_empty (m : Links ν) (t : ν) (h : m.tasks = none) :
    ∃ m', listAdd m .tasks t = some m' ∧ Circle m'.next m'.prev [t] ∧ m'.tasks = some t := by
  refine ⟨_, by simp only [listAdd, Links.load, h]; rfl, ?_, rfl⟩
  exact Circle.singleton (Function.update_self _ _ _) (Function.update_self _ _ _)

/-- A node is put before the one the list points to. -/
theorem listAdd_before {m : Links ν} (list : Cell ν) {a t : ν} {xs : List ν}
    (hlist : m.load list = some a) (hother : list ≠ .prev t)
    (h : Circle m.next m.prev (a :: xs)) (ht : t ∉ a :: xs) :
    ∃ m', listAdd m list t = some m' ∧ Circle m'.next m'.prev (a :: (xs ++ [t])) ∧
      m'.tasks = m.tasks := by
  obtain ⟨z, hz⟩ : ∃ z, (a :: xs).getLast? = some z := ⟨_, List.getLast?_eq_some_getLast (by simp)⟩
  have hmem : z ∈ a :: xs := List.mem_of_getLast? hz
  have hat : a ≠ t := fun heq => ht (heq ▸ List.mem_cons_self)
  have hzt : z ≠ t := fun heq => ht (heq ▸ hmem)
  have hprev := (h.prev_head hz).2
  -- none of the stores before the last one touches the word of the list
  have hload (m' : Links ν) (htasks : m'.tasks = m.tasks)
      (hfield : ∀ x ≠ t, m'.prev x = m.prev x) : m'.load list = some a := by
    cases list with
    | tasks => exact htasks.trans hlist
    | prev node =>
        refine (hfield node ?_).trans hlist
        intro heq
        exact hother (heq ▸ rfl)
  have hload₁ := hload (m.setPrev t (some z)) rfl fun x hx => Function.update_of_ne hx _ _
  have hprev₁ : (m.setPrev t (some z)).prev a = some z := by
    rw [← hprev]
    exact Function.update_of_ne hat _ _
  have hload₂ := hload ((m.setPrev t (some z)).setNext z (some t)) rfl
    fun x hx => Function.update_of_ne hx _ _
  have hload₃ := hload (((m.setPrev t (some z)).setNext z (some t)).setNext t (some a)) rfl
    fun x hx => Function.update_of_ne hx _ _
  have hrun : listAdd m list t = some ((((m.setPrev t (some z)).setNext z (some t)).setNext t
      (some a)).setPrev a (some t)) := by
    simp only [listAdd, hlist, hprev, hload₁, hprev₁, hload₂, hload₃, Option.bind_eq_bind,
      Option.bind_some]
  refine ⟨_, hrun, ?_, rfl⟩
  refine h.insert hz ht ⟨?_, ?_⟩ ⟨?_, ?_⟩ ?_ ?_
  · simp [Links.setNext, Links.setPrev, hzt]
  · simp [Links.setNext, Links.setPrev, Ne.symm hat]
  · simp [Links.setNext, Links.setPrev]
  · simp [Links.setNext, Links.setPrev]
  · intro x hx hne
    have hxt : x ≠ t := fun heq => ht (heq ▸ hx)
    simp [Links.setNext, Links.setPrev, hxt, hne]
  · intro x hx hne
    have hxt : x ≠ t := fun heq => ht (heq ▸ hx)
    simp [Links.setNext, Links.setPrev, hxt, hne]

/-- The first node is taken out of its list. -/
theorem listRemove_head {m : Links ν} {a : ν} {xs : List ν} (htasks : m.tasks = some a)
    (h : Circle m.next m.prev (a :: xs)) :
    ∃ m', listRemove m .tasks a = some m' ∧ Circle m'.next m'.prev xs ∧ m'.tasks = xs.head? := by
  cases xs with
  | nil =>
      have hself : Link m.next m.prev a a := h.prev_head rfl
      have hrun : listRemove m .tasks a =
          some (((m.store .tasks none).setNext a none).setPrev a none) := by
        simp [listRemove, hself.1, hself.2]
      exact ⟨_, hrun, Circle.nil, rfl⟩
  | cons b xs =>
      obtain ⟨z, hz⟩ : ∃ z, (b :: xs).getLast? = some z :=
        ⟨_, List.getLast?_eq_some_getLast (by simp)⟩
      have hnodup := List.nodup_cons.mp h.nodup
      have haz : a ≠ z := fun heq => hnodup.1 (heq ▸ List.mem_of_getLast? hz)
      have hab : a ≠ b := fun heq => hnodup.1 (heq ▸ List.mem_cons_self)
      have hprev := (h.prev_head hz).2
      have hnext : m.next a = some b :=
        (List.isChain_cons_cons.mp ((chain_cons_iff _ a (b :: xs)).mp h.chain).1).1.1
      have hrun : listRemove m .tasks a = some (((((m.setNext z (some b)).setPrev b
          (some z)).store .tasks (some b)).setNext a none).setPrev a none) := by
        simp [listRemove, Links.setNext, Links.setPrev, Links.load, Links.store, hnext, hprev,
          htasks, haz, Ne.symm hab]
      refine ⟨_, hrun, ?_, rfl⟩
      have hne : ∀ x ∈ b :: xs, x ≠ a := fun x hx heq => hnodup.1 (heq ▸ hx)
      refine h.remove hz ⟨?_, ?_⟩ ?_ ?_
      · simp [Links.setNext, Links.setPrev, Links.store, Ne.symm haz]
      · simp [Links.setNext, Links.setPrev, Links.store, Ne.symm hab]
      · intro x hx hxz
        simp [Links.setNext, Links.setPrev, Links.store, hxz, hne x hx]
      · intro x hx hxb
        simp [Links.setNext, Links.setPrev, Links.store, hxb, hne x hx]

end Plo.Sbi
