import Mathlib.Logic.Function.Basic
import Plo.Base.Run

/-!
Critical sections under spinlocks. Code is a sequence of single accesses to data; every
lock guards data of its own, and a thread runs code on it between taking the lock and
giving it back. Whatever the order in which the threads take their steps, the data under
a lock is what the pieces of code leave that are run one after another, each in one go,
in the order in which the threads had the lock, and their results are the same.
-/
namespace Plo.Critical
universe u
variable {κ ω δ ρ α β : Type u}

/-- Code on data, one access a step; it ends with a result or fails. -/
inductive Code (δ ρ : Type u)
  | done (r : ρ)
  | fail
  | step (f : δ → δ) (next : δ → Code δ ρ)

namespace Code

/-- The code run in one go. -/
def run : Code δ ρ → δ → Option (δ × ρ)
  | .done r, d => some (d, r)
  | .fail, _ => none
  | .step f next, d => (next d).run (f d)

protected def bind : Code δ α → (α → Code δ β) → Code δ β
  | .done a, k => k a
  | .fail, _ => .fail
  | .step f next, k => .step f fun d => (next d).bind k

instance : Monad (Code δ) where
  pure := .done
  bind := Code.bind

def read (f : δ → α) : Code δ α := .step id fun d => .done (f d)

def write (f : δ → δ) : Code δ PUnit := .step f fun _ => .done ⟨⟩

/-- A pointer that is followed. -/
def need : Option α → Code δ α
  | none => .fail
  | some a => .done a

@[simp] theorem run_pure (r : ρ) (d : δ) : (pure r : Code δ ρ).run d = some (d, r) := rfl

@[simp] theorem run_bind (c : Code δ α) (k : α → Code δ β) (d : δ) :
    (c >>= k).run d = (c.run d).bind fun p => (k p.2).run p.1 := by
  change (c.bind k).run d = _
  induction c generalizing d with
  | done a => rfl
  | fail => rfl
  | step f next ih => exact ih d (f d)

@[simp] theorem run_read (f : δ → α) (d : δ) : (read f).run d = some (d, f d) := rfl

@[simp] theorem run_write (f : δ → δ) (d : δ) : (write f).run d = some (f d, ⟨⟩) := rfl

@[simp] theorem run_need (a : Option α) (d : δ) : (need a).run d = a.map fun a => (d, a) := by
  cases a <;> rfl

end Code

/-- Where a thread is: outside, before a lock it wants, or with the rest of its code
while it has the lock. -/
inductive Thread (κ ω δ ρ : Type u)
  | outside
  | spinning (k : κ) (op : ω)
  | inside (k : κ) (op : ω) (c : Code δ ρ)

/-- A call that has given the lock back. -/
structure Entry (ω ρ : Type u) where
  thread : Nat
  op : ω
  result : ρ

structure Locked (κ ω δ ρ : Type u) where
  lock : κ → Bool
  data : κ → δ
  thread : Nat → Thread κ ω δ ρ
  log : κ → List (Entry ω ρ)

inductive LockStep (κ ω : Type u)
  | call (me : Nat) (k : κ) (op : ω)
  | next (me : Nat)

namespace Locked

def init (data : κ → δ) : Locked κ ω δ ρ :=
  ⟨fun _ => false, data, fun _ => .outside, fun _ => []⟩

/-- A thread asks for a lock, swaps a one into it, takes an access, or swaps a zero into
the lock at the end of its code. -/
def step [DecidableEq κ] (code : ω → Code δ ρ) (s : Locked κ ω δ ρ) : LockStep κ ω → Locked κ ω δ ρ
  | .call me k op =>
    match s.thread me with
    | .outside => { s with thread := Function.update s.thread me (.spinning k op) }
    | _ => s
  | .next me =>
    match s.thread me with
    | .outside => s
    | .spinning k op =>
      if s.lock k then s
      else
        { s with
          lock := Function.update s.lock k true
          thread := Function.update s.thread me (.inside k op (code op)) }
    | .inside k op (.step f next) =>
      { s with
        data := Function.update s.data k (f (s.data k))
        thread := Function.update s.thread me (.inside k op (next (s.data k))) }
    | .inside k op (.done r) =>
      { s with
        lock := Function.update s.lock k false
        thread := Function.update s.thread me .outside
        log := Function.update s.log k (s.log k ++ [⟨me, op, r⟩]) }
    | .inside _ _ .fail => s

def Inside (s : Locked κ ω δ ρ) (k : κ) (me : Nat) : Prop := ∃ op c, s.thread me = .inside k op c

end Locked

/-- The calls one after another, each in one go, give these results and lead to this data. -/
def History (code : ω → Code δ ρ) : δ → List (Entry ω ρ) → δ → Prop
  | d, [], d' => d' = d
  | d, e :: log, d' => ∃ d₁, (code e.op).run d = some (d₁, e.result) ∧ History code d₁ log d'

section History
variable {code : ω → Code δ ρ} {d d' : δ}

theorem history_concat (log : List (Entry ω ρ)) (e : Entry ω ρ) :
    History code d (log ++ [e]) d' ↔
      ∃ d₁, History code d log d₁ ∧ (code e.op).run d₁ = some (d', e.result) := by
  induction log generalizing d with
  | nil =>
      constructor
      · rintro ⟨d₁, hrun, rfl⟩
        exact ⟨d, rfl, hrun⟩
      · rintro ⟨_, rfl, hrun⟩
        exact ⟨d', hrun, rfl⟩
  | cons e' log ih =>
      constructor
      · rintro ⟨d₁, hrun, h⟩
        obtain ⟨d₂, hlog, hlast⟩ := ih.mp h
        exact ⟨d₂, ⟨d₁, hrun, hlog⟩, hlast⟩
      · rintro ⟨d₂, ⟨d₁, hrun, hlog⟩, hlast⟩
        exact ⟨d₁, hrun, ih.mpr ⟨d₂, hlog, hlast⟩⟩

/-- The code does not fail on data of a kind that it keeps. -/
def Total (code : ω → Code δ ρ) (I : δ → Prop) : Prop :=
  ∀ op d, I d → ∃ d' r, (code op).run d = some (d', r) ∧ I d'

theorem History.invariant {I : δ → Prop} (hI : Total code I) {log : List (Entry ω ρ)}
    (h : History code d log d') (hd : I d) : I d' := by
  induction log generalizing d with
  | nil => exact h ▸ hd
  | cons e log ih =>
      obtain ⟨d₁, hrun, hlog⟩ := h
      obtain ⟨d₂, r, hrun', hd₂⟩ := hI e.op d hd
      rw [hrun] at hrun'
      cases hrun'
      exact ih hlog hd₂

end History

section Runs
variable {code : ω → Code δ ρ} {init : κ → δ} {s s' : Locked κ ω δ ρ} {k : κ}

/-- A lock that nobody has. -/
structure Free (code : ω → Code δ ρ) (init : κ → δ) (s : Locked κ ω δ ρ) (k : κ) : Prop where
  lock : s.lock k = false
  empty : ∀ t, ¬s.Inside k t
  history : History code (init k) (s.log k) (s.data k)

/-- A lock that one thread has: when it ends its code, it will have been run in one go. -/
structure Held (code : ω → Code δ ρ) (init : κ → δ) (s : Locked κ ω δ ρ) (k : κ) (me : Nat)
    (op : ω) (c : Code δ ρ) : Prop where
  lock : s.lock k = true
  inside : s.thread me = .inside k op c
  only : ∀ t, s.Inside k t → t = me
  history : ∃ d r, History code (init k) (s.log k ++ [⟨me, op, r⟩]) d ∧
    c.run (s.data k) = some (d, r)

def Linear (code : ω → Code δ ρ) (init : κ → δ) (s : Locked κ ω δ ρ) (k : κ) : Prop :=
  Free code init s k ∨ ∃ me op c, Held code init s k me op c

/-- A step that leaves the lock, its data and the threads inside alone. -/
theorem Linear.frame (h : Linear code init s k) (hlock : s'.lock k = s.lock k)
    (hdata : s'.data k = s.data k) (hlog : s'.log k = s.log k)
    (hthread : ∀ t op c, s'.thread t = .inside k op c ↔ s.thread t = .inside k op c) :
    Linear code init s' k := by
  have hinside : ∀ t, s'.Inside k t ↔ s.Inside k t := fun t => by
    simp only [Locked.Inside, hthread]
  rcases h with h | ⟨me, op, c, h⟩
  · exact Or.inl ⟨hlock.trans h.lock, fun t ht => h.empty t ((hinside t).mp ht),
      by rw [hlog, hdata]; exact h.history⟩
  · exact Or.inr ⟨me, op, c, hlock.trans h.lock, (hthread me op c).mpr h.inside,
      fun t ht => h.only t ((hinside t).mp ht), by rw [hlog, hdata]; exact h.history⟩

/-- One thread moves and is not inside the lock's code before or after. -/
theorem thread_update {me : Nat} {t : Thread κ ω δ ρ} (hold : ∀ op c, s.thread me ≠ .inside k op c)
    (hnew : ∀ op c, t ≠ .inside k op c) (t' : Nat) (op : ω) (c : Code δ ρ) :
    Function.update s.thread me t t' = .inside k op c ↔ s.thread t' = .inside k op c := by
  by_cases ht : t' = me
  · rw [ht, Function.update_self]
    exact iff_of_false (hnew op c) (hold op c)
  · rw [Function.update_of_ne ht]

theorem Linear.held (h : Linear code init s k) {me : Nat} {op : ω} {c : Code δ ρ}
    (hinside : s.thread me = .inside k op c) : Held code init s k me op c := by
  rcases h with h | ⟨me', op', c', h⟩
  · exact absurd ⟨op, c, hinside⟩ (h.empty me)
  · obtain rfl := h.only me ⟨op, c, hinside⟩
    have heq := h.inside
    rw [hinside] at heq
    cases heq
    exact h

theorem Linear.free (h : Linear code init s k) (hlock : s.lock k = false) : Free code init s k := by
  rcases h with h | ⟨me, op, c, h⟩
  · exact h
  · rw [h.lock] at hlock
    cases hlock

variable [DecidableEq κ]

/-- A thread takes the lock. -/
theorem Free.take (h : Free code init s k) {me : Nat} {op : ω} {d : δ} {r : ρ}
    (hrun : (code op).run (s.data k) = some (d, r)) :
    Held code init { s with
      lock := Function.update s.lock k true
      thread := Function.update s.thread me (.inside k op (code op)) } k me op (code op) := by
  refine ⟨Function.update_self .., Function.update_self .., fun t ht => ?_,
    d, r, (history_concat _ _).mpr ⟨_, h.history, hrun⟩, hrun⟩
  by_contra hne
  obtain ⟨op', c', ht⟩ := ht
  exact h.empty t ⟨op', c', (Function.update_of_ne hne ..).symm.trans ht⟩

/-- The thread inside takes an access. -/
theorem Held.access {me : Nat} {op : ω} {f : δ → δ} {next : δ → Code δ ρ}
    (h : Held code init s k me op (.step f next)) :
    Held code init { s with
      data := Function.update s.data k (f (s.data k))
      thread := Function.update s.thread me (.inside k op (next (s.data k))) } k me op
      (next (s.data k)) := by
  obtain ⟨d, r, hlog, hrun⟩ := h.history
  refine ⟨h.lock, Function.update_self .., fun t ht => ?_, d, r, hlog, ?_⟩
  · by_contra hne
    obtain ⟨op', c', ht⟩ := ht
    exact hne (h.only t ⟨op', c', (Function.update_of_ne hne ..).symm.trans ht⟩)
  · simp only [Function.update_self]
    exact hrun

/-- The thread inside gives the lock back. -/
theorem Held.release {me : Nat} {op : ω} {r : ρ} (h : Held code init s k me op (.done r)) :
    Free code init { s with
      lock := Function.update s.lock k false
      thread := Function.update s.thread me .outside
      log := Function.update s.log k (s.log k ++ [⟨me, op, r⟩]) } k := by
  obtain ⟨d, r', hlog, hrun⟩ := h.history
  cases hrun
  refine ⟨Function.update_self .., fun t ht => ?_, ?_⟩
  · obtain ⟨op', c', ht⟩ := ht
    by_cases hne : t = me
    · rw [hne] at ht
      exact nomatch (Function.update_self ..).symm.trans ht
    · have hold : s.thread t = .inside k op' c' := (Function.update_of_ne hne ..).symm.trans ht
      exact hne (h.only t ⟨op', c', hold⟩)
  · simp only [Function.update_self]
    exact hlog

theorem Linear.step {I : δ → Prop} (hI : Total code I) (hinit : ∀ k, I (init k))
    (h : ∀ k, Linear code init s k) (i : LockStep κ ω) (k : κ) :
    Linear code init (s.step code i) k := by
  cases i with
  | call me k₀ op =>
      simp only [Locked.step]
      split
      · next hthread =>
        exact (h k).frame rfl rfl rfl
          (thread_update (fun _ _ heq => nomatch hthread.symm.trans heq) nofun)
      · exact h k
  | next me =>
      simp only [Locked.step]
      split
      · exact h k
      · next k₀ op hthread =>
        split
        · exact h k
        · next hlock =>
          by_cases hk : k = k₀
          · subst hk
            have hfree := (h k).free (Bool.eq_false_iff.mpr hlock)
            obtain ⟨d, r, hrun, -⟩ := hI op _ (hfree.history.invariant hI (hinit k))
            exact Or.inr ⟨me, op, code op, hfree.take hrun⟩
          · refine (h k).frame (Function.update_of_ne hk ..) rfl rfl (thread_update ?_ ?_)
            · exact fun _ _ heq => nomatch hthread.symm.trans heq
            · rintro op' c' ⟨⟩
              exact hk rfl
      · next k₀ op f next hthread =>
        by_cases hk : k = k₀
        · subst hk
          exact Or.inr ⟨me, op, _, ((h k).held hthread).access⟩
        · refine (h k).frame rfl (Function.update_of_ne hk ..) rfl (thread_update ?_ ?_)
          · intro op' c' heq
            cases hthread.symm.trans heq
            exact hk rfl
          · rintro op' c' ⟨⟩
            exact hk rfl
      · next k₀ op r hthread =>
        by_cases hk : k = k₀
        · subst hk
          exact Or.inl ((h k).held hthread).release
        · refine (h k).frame (Function.update_of_ne hk ..) rfl (Function.update_of_ne hk ..)
            (thread_update ?_ nofun)
          intro op' c' heq
          cases hthread.symm.trans heq
          exact hk rfl
      · exact h k

/-- In every run each lock is free or had by one thread, and the calls that have had it
are the same as if each had been run in one go. -/
theorem linearizable {I : δ → Prop} (hI : Total code I) (hinit : ∀ k, I (init k))
    {ok : Locked κ ω δ ρ → LockStep κ ω → Prop}
    (h : Reachable (Locked.step code) ok (Locked.init init) s) (k : κ) : Linear code init s k := by
  refine h.invariant (I := fun s => ∀ k, Linear code init s k) (fun k => Or.inl ⟨rfl, ?_, ?_⟩)
    (fun s i hs _ => Linear.step hI hinit hs i) k
  · rintro t ⟨op, c, ht⟩
    cases ht
  · exact rfl

end Runs

end Plo.Critical
