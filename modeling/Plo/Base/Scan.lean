import Mathlib.Data.List.Chain

/-!
Loops that read memory. A scanner goes from state to state until it has a result, and reads
ranges of memory in each. Its runs are bounded when they end, go ahead in every turn and only
read inside of some bounds. If the states a scanner would come to are known, this is a question
of where it stops.
-/
namespace Plo
universe u v

/-- The ranges that are read in a state, each an address and a size; the next state or the
result; and what it means to go ahead. -/
structure Scanner (σ : Type u) (ρ : Type v) where
  reads : σ → List (Nat × Nat)
  step : σ → σ ⊕ ρ
  Ahead : σ → σ → Prop

namespace Scanner
variable {σ : Type u} {ρ : Type v} (S : Scanner σ ρ) (lo hi : Nat)

/-- The states of a run of at most `n` turns, and its result. -/
def run : Nat → σ → Option (List σ × ρ)
  | 0, _ => none
  | n + 1, s =>
    match S.step s with
    | .inl s' => (run n s').map fun l => (s :: l.1, l.2)
    | .inr r => some ([s], r)

/-- Everything that is read in a state lies inside. -/
def Inside (s : σ) : Prop := ∀ r ∈ S.reads s, lo ≤ r.1 ∧ r.1 + r.2 ≤ hi

/-- The run from a state ends, goes ahead in every turn and stays inside. -/
def Bounded (s : σ) : Prop :=
  ∃ n states r, S.run n s = some (states, r) ∧ states.IsChain S.Ahead ∧
    ∀ s ∈ states, S.Inside lo hi s

variable {S lo hi}

theorem run_succ_inl {s s' : σ} (h : S.step s = .inl s') (n : Nat) :
    S.run (n + 1) s = (S.run n s').map fun l => (s :: l.1, l.2) := by
  rw [run, h]

theorem run_succ_inr {s : σ} {r : ρ} (h : S.step s = .inr r) (n : Nat) :
    S.run (n + 1) s = some ([s], r) := by
  rw [run, h]

theorem run_head {n : Nat} {s : σ} {states : List σ} {r : ρ} (h : S.run n s = some (states, r)) :
    ∃ l, states = s :: l := by
  cases n with
  | zero => cases h
  | succ n =>
      cases hstep : S.step s with
      | inl s' =>
          rw [run_succ_inl hstep] at h
          obtain ⟨l, -, hl⟩ := Option.map_eq_some_iff.mp h
          exact ⟨l.1, (congrArg Prod.fst hl).symm⟩
      | inr r' =>
          rw [run_succ_inr hstep] at h
          exact ⟨[], (congrArg Prod.fst (Option.some.inj h)).symm⟩

/-- The run behind a turn that is not the last. -/
theorem run_next {n : Nat} {s s' : σ} {states : List σ} {r : ρ} (h : S.step s = .inl s')
    (hrun : S.run (n + 1) s = some (states, r)) :
    ∃ l, states = s :: l ∧ S.run n s' = some (l, r) := by
  rw [run_succ_inl h] at hrun
  obtain ⟨⟨l, r'⟩, hl, heq⟩ := Option.map_eq_some_iff.mp hrun
  obtain rfl : r' = r := congrArg Prod.snd heq
  exact ⟨l, (congrArg Prod.fst heq).symm, hl⟩

theorem run_last {n : Nat} {s : σ} {states : List σ} {r r' : ρ} (h : S.step s = .inr r')
    (hrun : S.run n s = some (states, r)) : states = [s] ∧ r' = r := by
  cases n with
  | zero => cases hrun
  | succ n =>
      rw [run_succ_inr h] at hrun
      have heq := Option.some.inj hrun
      exact ⟨(congrArg Prod.fst heq).symm, congrArg Prod.snd heq⟩

theorem Bounded.inside {s : σ} (h : S.Bounded lo hi s) : S.Inside lo hi s := by
  obtain ⟨n, states, r, hrun, -, hinside⟩ := h
  obtain ⟨l, rfl⟩ := run_head hrun
  exact hinside s List.mem_cons_self

theorem bounded_done {s : σ} {r : ρ} (h : S.step s = .inr r) :
    S.Bounded lo hi s ↔ S.Inside lo hi s := by
  constructor
  · exact Bounded.inside
  · intro hinside
    refine ⟨1, [s], r, ?_, List.isChain_singleton s, ?_⟩
    · rw [run_succ_inr h]
    · intro t ht
      rw [List.mem_singleton.mp ht]
      exact hinside

theorem bounded_next {s s' : σ} (h : S.step s = .inl s') :
    S.Bounded lo hi s ↔ S.Inside lo hi s ∧ S.Ahead s s' ∧ S.Bounded lo hi s' := by
  constructor
  · rintro ⟨n, states, r, hrun, hchain, hinside⟩
    cases n with
    | zero => cases hrun
    | succ n =>
        obtain ⟨l, rfl, hl⟩ := run_next h hrun
        obtain ⟨l', rfl⟩ := run_head hl
        obtain ⟨hahead, hchain⟩ := List.isChain_cons_cons.mp hchain
        refine ⟨hinside s List.mem_cons_self, hahead, n, _, r, hl, hchain, ?_⟩
        exact fun t ht => hinside t (List.mem_cons_of_mem s ht)
  · rintro ⟨hs, hahead, n, states, r, hrun, hchain, hinside⟩
    obtain ⟨l, rfl⟩ := run_head hrun
    refine ⟨n + 1, s :: s' :: l, r, ?_, List.isChain_cons_cons.mpr ⟨hahead, hchain⟩, ?_⟩
    · rw [run_succ_inl h, hrun, Option.map_some]
    · intro t ht
      rcases List.mem_cons.mp ht with rfl | ht
      · exact hs
      · exact hinside t ht

section
variable {f : Nat → σ}

/-- The turns of a run that are known. -/
theorem bounded_path {n : Nat} (hstep : ∀ i < n, S.step (f i) = .inl (f (i + 1))) :
    S.Bounded lo hi (f 0) ↔
      (∀ i < n, S.Inside lo hi (f i) ∧ S.Ahead (f i) (f (i + 1))) ∧ S.Bounded lo hi (f n) := by
  induction n with
  | zero => exact ⟨fun h => ⟨nofun, h⟩, fun h => h.2⟩
  | succ n ih =>
      rw [ih fun i hi => hstep i (Nat.lt_succ_of_lt hi), bounded_next (hstep n (Nat.lt_succ_self n))]
      constructor
      · rintro ⟨hbefore, hinside, hahead, hrest⟩
        refine ⟨?_, hrest⟩
        intro i hi
        rcases Nat.lt_succ_iff_lt_or_eq.mp hi with hi | rfl
        · exact hbefore i hi
        · exact ⟨hinside, hahead⟩
      · rintro ⟨hbefore, hrest⟩
        obtain ⟨hinside, hahead⟩ := hbefore n (Nat.lt_succ_self n)
        exact ⟨fun i hi => hbefore i (Nat.lt_succ_of_lt hi), hinside, hahead, hrest⟩

/-- Where all states are known, a run that ends stops somewhere. -/
theorem run_stops {stop : Nat → Prop}
    (hnext : ∀ i, ¬stop i → S.step (f i) = .inl (f (i + 1))) {n i : Nat} {states : List σ} {r : ρ}
    (hrun : S.run n (f i) = some (states, r)) :
    ∃ k, i ≤ k ∧ stop k ∧ ∀ j, i ≤ j → j < k → ¬stop j := by
  induction n generalizing i states r with
  | zero => cases hrun
  | succ n ih =>
      by_cases hstop : stop i
      · exact ⟨i, Nat.le_refl i, hstop, fun j hi hj => absurd hj (Nat.not_lt.mpr hi)⟩
      · obtain ⟨l, -, hl⟩ := run_next (hnext i hstop) hrun
        obtain ⟨k, hk, hstop', hbefore⟩ := ih hl
        refine ⟨k, by omega, hstop', ?_⟩
        intro j hi hj
        rcases Nat.eq_or_lt_of_le hi with rfl | hi
        · exact hstop
        · exact hbefore j hi hj

/-- Where all states are known, a run is bounded exactly if it comes to a stop before it does not
go ahead or reads outside. -/
theorem bounded_iff {stop : Nat → Prop} (hstop : ∀ i, stop i → ∃ r, S.step (f i) = .inr r)
    (hnext : ∀ i, ¬stop i → S.step (f i) = .inl (f (i + 1))) :
    S.Bounded lo hi (f 0) ↔
      ∃ k, stop k ∧ (∀ i < k, ¬stop i ∧ S.Ahead (f i) (f (i + 1))) ∧
        ∀ i ≤ k, S.Inside lo hi (f i) := by
  constructor
  · intro h
    have hends := h
    obtain ⟨n, states, r, hrun, -⟩ := hends
    obtain ⟨k, -, hk, hbefore⟩ := run_stops hnext hrun
    have hbefore' (i : Nat) (hi : i < k) : ¬stop i := hbefore i (Nat.zero_le i) hi
    obtain ⟨hpath, hlast⟩ := (bounded_path fun i hi => hnext i (hbefore' i hi)).mp h
    obtain ⟨r', hr'⟩ := hstop k hk
    refine ⟨k, hk, fun i hi => ⟨hbefore' i hi, (hpath i hi).2⟩, ?_⟩
    intro i hi
    rcases Nat.lt_or_eq_of_le hi with hi | rfl
    · exact (hpath i hi).1
    · exact (bounded_done hr').mp hlast
  · rintro ⟨k, hk, hbefore, hinside⟩
    obtain ⟨r, hr⟩ := hstop k hk
    refine (bounded_path fun i hi => hnext i (hbefore i hi).1).mpr ⟨?_, ?_⟩
    · exact fun i hi => ⟨hinside i (Nat.le_of_lt hi), (hbefore i hi).2⟩
    · exact (bounded_done hr).mpr (hinside k (Nat.le_refl k))

end

end Scanner

end Plo
