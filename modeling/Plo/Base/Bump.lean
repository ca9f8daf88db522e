import Mathlib.Data.Set.BooleanAlgebra
import Mathlib.Order.CompletePartialOrder
import Plo.Base.Run
import Plo.Base.Word

/-!
Blocks taken one behind another from a linear order. A request leads from the end of what
is taken to the end of its own block and is granted when that end is below a limit. What is
taken carries its own tiling, so that a state with a gap or an overlap cannot be built.
-/
namespace Plo
universe u v

section Round
variable {d n m : Nat}

/-- The first multiple of `d` from `n` on. -/
def roundUp (d n : Nat) : Nat := (n + (d - 1)) / d * d

theorem dvd_roundUp (d n : Nat) : d ∣ roundUp d n := Nat.dvd_mul_left d _

theorem le_roundUp (hd : 0 < d) : n ≤ roundUp d n := by
  have hdiv := Nat.div_add_mod (n + (d - 1)) d
  have hmod := Nat.mod_lt (n + (d - 1)) hd
  rw [Nat.mul_comm] at hdiv
  simp only [roundUp]
  omega

theorem roundUp_le (hd : 0 < d) (hn : n ≤ m) (hm : d ∣ m) : roundUp d n ≤ m :=
  div_mul_le_of_dvd hd hn hm

theorem roundUp_mono (hd : 0 < d) : Monotone (roundUp d) := fun _ m hnm =>
  roundUp_le hd (le_trans hnm (le_roundUp hd)) (dvd_roundUp d m)

/-- Below a multiple of `d` no rounded number is cut off. -/
theorem roundUp_lt_iff (hd : 0 < d) (hm : d ∣ m) : roundUp d n < m ↔ n + (d - 1) < m := by
  constructor
  · intro h
    have hn : n ≤ roundUp d n := le_roundUp hd
    have hroom := add_le_of_dvd_of_lt (dvd_roundUp d n) hm h
    omega
  · intro h
    exact Nat.lt_of_le_of_lt (Nat.div_mul_le_self _ d) h

end Round

/-- A block of an ordered space. -/
structure Extent (α : Type u) [LE α] where
  start : α
  stop : α
  start_le : start ≤ stop

namespace Extent
variable {α : Type u} [LinearOrder α]

def space (e : Extent α) : Set α := Set.Ico e.start e.stop

theorem disjoint_of_le {e e' : Extent α} (h : e'.stop ≤ e.start) :
    Disjoint e.space e'.space := by
  refine Set.disjoint_left.mpr ?_
  intro x hx hx'
  exact absurd (lt_of_lt_of_le hx'.2 h) (not_lt_of_ge hx.1)

end Extent

/-- The blocks, newest first, follow one another from `bottom` to the point given last. -/
def Tiles {α : Type u} [LE α] (bottom : α) : List (Extent α) → α → Prop
  | [], top => top = bottom
  | e :: es, top => e.stop = top ∧ Tiles bottom es e.start

namespace Tiles
variable {α : Type u} [LinearOrder α] {bottom top : α} {es : List (Extent α)}

theorem bottom_le (h : Tiles bottom es top) : bottom ≤ top := by
  induction es generalizing top with
  | nil => exact (Eq.symm h).le
  | cons e es ih =>
      obtain ⟨rfl, hes⟩ := h
      exact le_trans (ih hes) e.start_le

theorem mem (h : Tiles bottom es top) {e : Extent α} (he : e ∈ es) :
    bottom ≤ e.start ∧ e.stop ≤ top := by
  induction es generalizing top with
  | nil => cases he
  | cons e' es ih =>
      obtain ⟨rfl, hes⟩ := h
      cases List.mem_cons.mp he with
      | inl heq =>
        subst heq
        exact ⟨hes.bottom_le, le_refl _⟩
      | inr hmem =>
        obtain ⟨hbottom, htop⟩ := ih hes hmem
        exact ⟨hbottom, le_trans htop e'.start_le⟩

theorem pairwise_le (h : Tiles bottom es top) : es.Pairwise (fun e e' => e'.stop ≤ e.start) := by
  induction es generalizing top with
  | nil => exact List.Pairwise.nil
  | cons e es ih =>
      obtain ⟨-, hes⟩ := h
      exact List.Pairwise.cons (fun e' he' => (hes.mem he').2) (ih hes)

theorem pairwise_disjoint (h : Tiles bottom es top) :
    es.Pairwise (fun e e' => Disjoint e.space e'.space) :=
  h.pairwise_le.imp Extent.disjoint_of_le

/-- The blocks leave nothing out between `bottom` and the point reached. -/
theorem mem_space_iff (h : Tiles bottom es top) (x : α) :
    (∃ e ∈ es, x ∈ e.space) ↔ bottom ≤ x ∧ x < top := by
  constructor
  · rintro ⟨e, he, hx⟩
    obtain ⟨hbottom, htop⟩ := h.mem he
    exact ⟨le_trans hbottom hx.1, lt_of_lt_of_le hx.2 htop⟩
  · rintro ⟨hbottom, htop⟩
    induction es generalizing top with
    | nil => exact absurd (h ▸ htop) (not_lt_of_ge hbottom)
    | cons e es ih =>
        obtain ⟨rfl, hes⟩ := h
        cases lt_or_ge x e.start with
        | inl hlt =>
          obtain ⟨e', he', hx⟩ := ih hes hlt
          exact ⟨e', List.mem_cons_of_mem e he', hx⟩
        | inr hge => exact ⟨e, List.mem_cons_self, hge, htop⟩

end Tiles

/-- What is taken so far from `bottom` on, with the newest block first. -/
structure Taken {α : Type u} [LE α] (bottom : α) where
  top : α
  blocks : List (Extent α)
  tiles : Tiles bottom blocks top

/-- Where a request leads from a point, and the limit that what is taken stays below. -/
structure Supply (α : Type u) [LE α] (ρ : Type v) where
  ends : ρ → α → α
  le_ends (r : ρ) (a : α) : a ≤ ends r a
  limit : α

namespace Taken
variable {α : Type u} [LinearOrder α] {bottom : α}

def empty (bottom : α) : Taken bottom := ⟨bottom, [], rfl⟩

/-- The block from the point reached to `stop` is taken too. -/
def push (t : Taken bottom) {stop : α} (h : t.top ≤ stop) : Taken bottom :=
  ⟨stop, ⟨t.top, stop, h⟩ :: t.blocks, rfl, t.tiles⟩

end Taken

namespace Supply
variable {α : Type u} [LinearOrder α] {ρ : Type v} {S : Supply α ρ} {bottom : α}

def take (S : Supply α ρ) (t : Taken bottom) (r : ρ) : Taken bottom :=
  if S.ends r t.top < S.limit then t.push (S.le_ends r t.top) else t

theorem take_granted {t : Taken bottom} {r : ρ} (h : S.ends r t.top < S.limit) :
    S.take t r = t.push (S.le_ends r t.top) := if_pos h

theorem take_refused {t : Taken bottom} {r : ρ} (h : S.limit ≤ S.ends r t.top) :
    S.take t r = t := if_neg (not_lt_of_ge h)

/-- What is reached by requests, one after another, from nothing. -/
abbrev Reached (S : Supply α ρ) (t : Taken bottom) : Prop :=
  Reachable S.take (fun _ _ => True) (Taken.empty bottom) t

theorem Reached.below {t : Taken bottom} (h : S.Reached t) :
    ∀ e ∈ t.blocks, e.stop < S.limit := by
  refine Reachable.invariant (I := fun t : Taken bottom => ∀ e ∈ t.blocks, e.stop < S.limit)
    ?_ ?_ h
  · intro e he
    cases he
  · intro t r ih _
    cases lt_or_ge (S.ends r t.top) S.limit with
    | inl hlt =>
      rw [take_granted hlt]
      exact List.forall_mem_cons.mpr ⟨hlt, ih⟩
    | inr hge =>
      rw [take_refused hge]
      exact ih

/-- A set that holds the bottom and every end holds every start and the point reached. -/
theorem Reached.closed {P : α → Prop} (hbottom : P bottom)
    (hends : ∀ r a, P a → P (S.ends r a)) {t : Taken bottom} (h : S.Reached t) :
    P t.top ∧ ∀ e ∈ t.blocks, P e.start := by
  refine Reachable.invariant (I := fun t : Taken bottom => P t.top ∧ ∀ e ∈ t.blocks, P e.start)
    ?_ ?_ h
  · refine ⟨hbottom, ?_⟩
    intro e he
    cases he
  · rintro t r ⟨htop, hstart⟩ -
    cases lt_or_ge (S.ends r t.top) S.limit with
    | inl hlt =>
      rw [take_granted hlt]
      exact ⟨hends r t.top htop, List.forall_mem_cons.mpr ⟨htop, hstart⟩⟩
    | inr hge =>
      rw [take_refused hge]
      exact ⟨htop, hstart⟩

end Supply

end Plo
