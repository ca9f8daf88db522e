import Mathlib.Tactic.TypeStar

/-!
Runs of a transition system whose steps are labelled by calls. The guard of a
call is read in the state the call is made in, so a property proved for all
reachable states holds in every run whose calls each meet the guard.
-/
namespace Plo
universe u v
variable {σ : Type u} {ι : Type v}

/-- States reached from `init` by calls that each meet `ok` where they are made. -/
inductive Reachable (step : σ → ι → σ) (ok : σ → ι → Prop) (init : σ) : σ → Prop
  | init : Reachable step ok init init
  | step {s : σ} {i : ι} :
      Reachable step ok init s → ok s i → Reachable step ok init (step s i)

variable {step : σ → ι → σ} {ok : σ → ι → Prop} {init : σ}

/-- The invariant rule: an initial fact that every guarded call preserves. -/
theorem Reachable.invariant {I : σ → Prop} (hinit : I init)
    (hstep : ∀ s i, I s → ok s i → I (step s i)) {s : σ}
    (h : Reachable step ok init s) : I s := by
  induction h with
  | init => exact hinit
  | step _ hok ih => exact hstep _ _ ih hok

/-- The simulation rule: a related state of another system is reached when that system
answers each call with one of its own, or with none. -/
theorem Reachable.simulated {τ κ : Type*} {step' : τ → κ → τ} {init' : τ} {R : σ → τ → Prop}
    (hinit : R init init')
    (hstep : ∀ s t i, R s t → ok s i → R (step s i) t ∨ ∃ k, R (step s i) (step' t k))
    {s : σ} (h : Reachable step ok init s) :
    ∃ t, Reachable step' (fun _ _ => True) init' t ∧ R s t := by
  induction h with
  | init => exact ⟨init', .init, hinit⟩
  | @step s i _ hok ih =>
      obtain ⟨t, ht, hR⟩ := ih
      cases hstep s t i hR hok with
      | inl hstay => exact ⟨t, ht, hstay⟩
      | inr hmove =>
          obtain ⟨k, hk⟩ := hmove
          exact ⟨step' t k, .step ht trivial, hk⟩

theorem Reachable.foldl {s : σ} (h : Reachable step ok init s) (calls : List ι)
    (hok : ∀ i ∈ calls, ∀ s, ok s i) : Reachable step ok init (calls.foldl step s) := by
  induction calls generalizing s with
  | nil => exact h
  | cons i calls ih =>
      exact ih (.step h (hok i List.mem_cons_self s))
        (fun j hj => hok j (List.mem_cons_of_mem i hj))

end Plo
