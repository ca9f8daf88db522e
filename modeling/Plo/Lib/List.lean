import Plo.Base.Links
import Plo.Base.Run
import Plo.Base.WordMem

/-!
The circular lists of the loader. A node is any structure with two link words, which are
passed as their offsets in it; `list` is the address of the word that points to the first
node. The stores are made one after another in memory, and every one of them may change a
word that a later one goes through.
-/
namespace Plo.Lib
variable {w : Nat}

def listAdd (h : Host w) (mem : BitVec w → UInt8) (list t noff poff : BitVec w) :
    BitVec w → UInt8 :=
  if t = 0 then mem
  else if h.load mem list = 0 then
    let mem := h.store mem (t + noff) t
    let mem := h.store mem (t + poff) t
    h.store mem list t
  else
    let mem := h.store mem (t + poff) (h.load mem (h.load mem list + poff))
    let mem := h.store mem (h.load mem (h.load mem list + poff) + noff) t
    let mem := h.store mem (t + noff) (h.load mem list)
    h.store mem (h.load mem list + poff) t

def listRemove (h : Host w) (mem : BitVec w → UInt8) (list t noff poff : BitVec w) :
    BitVec w → UInt8 :=
  if t = 0 then mem
  else
    let mem :=
      if h.load mem (t + noff) = t ∧ h.load mem (t + poff) = t then h.store mem list 0
      else
        let mem := h.store mem (h.load mem (t + poff) + noff) (h.load mem (t + noff))
        let mem := h.store mem (h.load mem (t + noff) + poff) (h.load mem (t + poff))
        if t = h.load mem list then h.store mem list (h.load mem (t + noff)) else mem
    let mem := h.store mem (t + noff) 0
    h.store mem (t + poff) 0

/-- The words that the operations go through. -/
inductive ListWord (w : Nat)
  | list
  | next (node : BitVec w)
  | prev (node : BitVec w)
  deriving DecidableEq

/-- Where a list is kept: its word, and the link words in its nodes. -/
structure Place (w : Nat) where
  host : Host w
  list : BitVec w
  noff : BitVec w
  poff : BitVec w

namespace Place
variable (p : Place w)

def addr : ListWord w → BitVec w
  | .list => p.list
  | .next node => node + p.noff
  | .prev node => node + p.poff

def word (mem : BitVec w → UInt8) (u : ListWord w) : BitVec w := p.host.load mem (p.addr u)

def set (mem : BitVec w → UInt8) (u : ListWord w) (v : BitVec w) : BitVec w → UInt8 :=
  p.host.store mem (p.addr u) v

/-- A link word that is NULL leads to no node. -/
def link (v : BitVec w) : Option (BitVec w) := if v = 0 then none else some v

def next (mem : BitVec w → UInt8) (node : BitVec w) : Option (BitVec w) :=
  link (p.word mem (.next node))

def prev (mem : BitVec w → UInt8) (node : BitVec w) : Option (BitVec w) :=
  link (p.word mem (.prev node))

/-- The memory holds the nodes of the list, linked in a circle, and its word points to the
first of them. -/
structure Holds (mem : BitVec w → UInt8) (xs : List (BitVec w)) : Prop where
  circle : Circle (p.next mem) (p.prev mem) xs
  head : link (p.word mem .list) = xs.head?

end Place

/-- The word is the list's or lies in one of the nodes. -/
def ListWord.In (nodes : Set (BitVec w)) : ListWord w → Prop
  | .list => True
  | .next node => node ∈ nodes
  | .prev node => node ∈ nodes

/-- Nodes that are objects of the program: none of them is NULL, and their link words and the
word of the list do not overlap. -/
structure Place.Separate (p : Place w) (nodes : Set (BitVec w)) : Prop where
  null : 0 ∉ nodes
  apart : ∀ u v, u.In nodes → v.In nodes → u ≠ v → WordsApart (p.addr u) (p.addr v)

section
variable {p : Place w} {nodes : Set (BitVec w)} {mem : BitVec w → UInt8} {xs : List (BitVec w)}
variable {t : BitVec w}

theorem Place.Separate.word_set (hp : p.Separate nodes) (u v : ListWord w) (hu : u.In nodes)
    (hv : v.In nodes) (x : BitVec w) :
    p.word (p.set mem u x) v = if v = u then x else p.word mem v := by
  by_cases heq : v = u
  · subst heq
    rw [if_pos rfl]
    exact p.host.load_store_self mem x
  · rw [if_neg heq]
    exact p.host.load_store_apart mem x (hp.apart u v hu hv (Ne.symm heq))

theorem Place.Separate.word_set_ne (hp : p.Separate nodes) (u v : ListWord w) (hne : v ≠ u)
    (hu : u.In nodes) (hv : v.In nodes) (x : BitVec w) :
    p.word (p.set mem u x) v = p.word mem v := by
  rw [hp.word_set u v hu hv, if_neg hne]

theorem Place.link_eq_some {v a : BitVec w} : Place.link v = some a ↔ v = a ∧ a ≠ 0 := by
  unfold Place.link
  by_cases hv : v = 0
  · rw [if_pos hv]
    simp only [reduceCtorEq, false_iff, not_and, not_not]
    intro heq
    exact heq ▸ hv
  · rw [if_neg hv, Option.some.injEq]
    constructor
    · rintro rfl
      exact ⟨rfl, hv⟩
    · exact fun h => h.1

theorem Place.Holds.head_word {a : BitVec w} (h : p.Holds mem (a :: xs)) :
    p.word mem .list = a ∧ a ≠ 0 :=
  Place.link_eq_some.mp h.head

theorem listAdd_eq : listAdd p.host mem p.list t p.noff p.poff =
    if t = 0 then mem
    else if p.word mem .list = 0 then
      p.set (p.set (p.set mem (.next t) t) (.prev t) t) .list t
    else
      let mem := p.set mem (.prev t) (p.word mem (.prev (p.word mem .list)))
      let mem := p.set mem (.next (p.word mem (.prev (p.word mem .list)))) t
      let mem := p.set mem (.next t) (p.word mem .list)
      p.set mem (.prev (p.word mem .list)) t := rfl

theorem listRemove_eq : listRemove p.host mem p.list t p.noff p.poff =
    if t = 0 then mem
    else
      let mem :=
        if p.word mem (.next t) = t ∧ p.word mem (.prev t) = t then p.set mem .list 0
        else
          let mem := p.set mem (.next (p.word mem (.prev t))) (p.word mem (.next t))
          let mem := p.set mem (.prev (p.word mem (.next t))) (p.word mem (.prev t))
          if t = p.word mem .list then p.set mem .list (p.word mem (.next t)) else mem
      p.set (p.set mem (.next t) 0) (.prev t) 0 := rfl

theorem listAdd_empty (hp : p.Separate nodes) (h : p.Holds mem []) (ht : t ∈ nodes) :
    listAdd p.host mem p.list t p.noff p.poff =
      p.set (p.set (p.set mem (.next t) t) (.prev t) t) .list t := by
  have ht0 : t ≠ 0 := fun heq => hp.null (heq ▸ ht)
  have hempty : p.word mem .list = 0 := by
    have hhead : Place.link (p.word mem .list) = none := h.head
    unfold Place.link at hhead
    split at hhead
    · assumption
    · cases hhead
  rw [listAdd_eq, if_neg ht0, if_pos hempty]

/-- A node goes between the last and the first. -/
theorem listAdd_last (hp : p.Separate nodes) {a z : BitVec w} (h : p.Holds mem (a :: xs))
    (hxs : ∀ x ∈ a :: xs, x ∈ nodes) (hz : (a :: xs).getLast? = some z) (ht : t ∈ nodes)
    (hnew : t ∉ a :: xs) :
    listAdd p.host mem p.list t p.noff p.poff =
      p.set (p.set (p.set (p.set mem (.prev t) z) (.next z) t) (.next t) a) (.prev a) t := by
  have ht0 : t ≠ 0 := fun heq => hp.null (heq ▸ ht)
  have ha := hxs a List.mem_cons_self
  have hat : a ≠ t := fun heq => hnew (heq ▸ List.mem_cons_self)
  have hmem := hxs z (List.mem_of_getLast? hz)
  obtain ⟨hlist, ha0⟩ := h.head_word
  have hprev : p.word mem (.prev a) = z := (Place.link_eq_some.mp (h.circle.prev_head hz).2).1
  have hlist₁ : p.word (p.set mem (.prev t) z) .list = a :=
    (hp.word_set_ne (.prev t) .list nofun ht trivial z).trans hlist
  have hprev₁ : p.word (p.set mem (.prev t) z) (.prev a) = z := by
    have hne : ListWord.prev a ≠ .prev t := by simpa using hat
    exact (hp.word_set_ne (.prev t) (.prev a) hne ht ha z).trans hprev
  have hlist₂ : p.word (p.set (p.set mem (.prev t) z) (.next z) t) .list = a :=
    (hp.word_set_ne (.next z) .list nofun hmem trivial t).trans hlist₁
  have hlist₃ : p.word (p.set (p.set (p.set mem (.prev t) z) (.next z) t) (.next t) a) .list =
      a :=
    (hp.word_set_ne (.next t) .list nofun ht trivial a).trans hlist₂
  rw [listAdd_eq, if_neg ht0, if_neg (hlist ▸ ha0)]
  simp only [hlist, hprev, hlist₁, hprev₁, hlist₂, hlist₃]

/-- The only node of a list is taken out. -/
theorem listRemove_only (hp : p.Separate nodes) (h : p.Holds mem [t]) (ht : t ∈ nodes) :
    listRemove p.host mem p.list t p.noff p.poff =
      p.set (p.set (p.set mem .list 0) (.next t) 0) (.prev t) 0 := by
  have ht0 : t ≠ 0 := fun heq => hp.null (heq ▸ ht)
  obtain ⟨hnext, hprev⟩ : Link (p.next mem) (p.prev mem) t t := h.circle.prev_head rfl
  have hself : p.word mem (.next t) = t ∧ p.word mem (.prev t) = t :=
    ⟨(Place.link_eq_some.mp hnext).1, (Place.link_eq_some.mp hprev).1⟩
  rw [listRemove_eq, if_neg ht0]
  simp only [if_pos hself]

/-- A node with others is taken out of its place in the circle. -/
theorem listRemove_linked (hp : p.Separate nodes) {b z : BitVec w}
    (hnext : p.word mem (.next t) = b) (hprev : p.word mem (.prev t) = z) (ht : t ∈ nodes)
    (hb : b ∈ nodes) (hz : z ∈ nodes) (hbt : b ≠ t) (hzt : z ≠ t) :
    listRemove p.host mem p.list t p.noff p.poff =
      let mem' := p.set (p.set mem (.next z) b) (.prev b) z
      let mem' := if t = p.word mem .list then p.set mem' .list b else mem'
      p.set (p.set mem' (.next t) 0) (.prev t) 0 := by
  have ht0 : t ≠ 0 := fun heq => hp.null (heq ▸ ht)
  have hself : ¬(p.word mem (.next t) = t ∧ p.word mem (.prev t) = t) := by
    rw [hnext]
    exact fun h => hbt h.1
  have hnext₁ : p.word (p.set mem (.next z) b) (.next t) = b := by
    have hne : ListWord.next t ≠ .next z := by simpa using Ne.symm hzt
    exact (hp.word_set_ne (.next z) (.next t) hne hz ht b).trans hnext
  have hprev₁ : p.word (p.set mem (.next z) b) (.prev t) = z :=
    (hp.word_set_ne (.next z) (.prev t) nofun hz ht b).trans hprev
  have hnext₂ : p.word (p.set (p.set mem (.next z) b) (.prev b) z) (.next t) = b :=
    (hp.word_set_ne (.prev b) (.next t) nofun hb ht z).trans hnext₁
  have hlist₂ : p.word (p.set (p.set mem (.next z) b) (.prev b) z) .list = p.word mem .list :=
    (hp.word_set_ne (.prev b) .list nofun hb trivial z).trans
      (hp.word_set_ne (.next z) .list nofun hz trivial b)
  rw [listRemove_eq, if_neg ht0, if_neg hself]
  simp only [hprev, hnext, hnext₁, hprev₁, hlist₂, hnext₂]

theorem Place.Separate.link_node (hp : p.Separate nodes) {x : BitVec w} (hx : x ∈ nodes) :
    Place.link x = some x :=
  Place.link_eq_some.mpr ⟨rfl, fun heq => hp.null (heq ▸ hx)⟩

/-- Both link words of a node are NULL. -/
def Place.Cleared (p : Place w) (mem : BitVec w → UInt8) (x : BitVec w) : Prop :=
  p.word mem (.next x) = 0 ∧ p.word mem (.prev x) = 0

/-- The first node of a list, which leads to itself. -/
theorem listAdd_holds_empty (hp : p.Separate nodes) (h : p.Holds mem []) (ht : t ∈ nodes) :
    p.Holds (listAdd p.host mem p.list t p.noff p.poff) [t] ∧
      ∀ x ∈ nodes, x ≠ t → p.Cleared mem x →
        p.Cleared (listAdd p.host mem p.list t p.noff p.poff) x := by
  rw [listAdd_empty hp h ht]
  have hlist (m : BitVec w → UInt8) : p.word (p.set m .list t) .list = t :=
    (hp.word_set .list .list trivial trivial t).trans (if_pos rfl)
  have hnext : ∀ x ∈ nodes, p.word (p.set (p.set (p.set mem (.next t) t) (.prev t) t) .list t)
      (.next x) = if x = t then t else p.word mem (.next x) := by
    intro x hx
    simp only [hp.word_set .list (.next x) trivial hx, hp.word_set (.prev t) (.next x) ht hx,
      hp.word_set (.next t) (.next x) ht hx, reduceCtorEq, if_false, ListWord.next.injEq]
  have hprev : ∀ x ∈ nodes, p.word (p.set (p.set (p.set mem (.next t) t) (.prev t) t) .list t)
      (.prev x) = if x = t then t else p.word mem (.prev x) := by
    intro x hx
    simp only [hp.word_set .list (.prev x) trivial hx, hp.word_set (.prev t) (.prev x) ht hx,
      hp.word_set (.next t) (.prev x) ht hx, reduceCtorEq, if_false, ListWord.prev.injEq]
  refine ⟨⟨Circle.singleton ?_ ?_, ?_⟩, ?_⟩
  · rw [Place.next, hnext t ht, if_pos rfl, hp.link_node ht]
  · rw [Place.prev, hprev t ht, if_pos rfl, hp.link_node ht]
  · rw [hlist, hp.link_node ht]
    rfl
  · intro x hx hxt hclear
    rw [Place.Cleared, hnext x hx, hprev x hx, if_neg hxt, if_neg hxt]
    exact hclear

/-- A node goes behind the last one `z`, and leads to the first one `a`. -/
theorem listAdd_holds_cons (hp : p.Separate nodes) {a z : BitVec w} (h : p.Holds mem (a :: xs))
    (hxs : ∀ x ∈ a :: xs, x ∈ nodes) (hz : (a :: xs).getLast? = some z) (ht : t ∈ nodes)
    (hnew : t ∉ a :: xs) :
    p.Holds (listAdd p.host mem p.list t p.noff p.poff) (a :: xs ++ [t]) ∧
      ∀ x ∈ nodes, x ∉ a :: xs → x ≠ t → p.Cleared mem x →
        p.Cleared (listAdd p.host mem p.list t p.noff p.poff) x := by
  have hzmem := List.mem_of_getLast? hz
  have ha := hxs a List.mem_cons_self
  have hzn := hxs z hzmem
  have hne : ∀ x ∈ a :: xs, x ≠ t := fun x hx heq => hnew (heq ▸ hx)
  rw [listAdd_last hp h hxs hz ht hnew]
  have hnext : ∀ x ∈ nodes, p.word (p.set (p.set (p.set (p.set mem (.prev t) z) (.next z) t)
      (.next t) a) (.prev a) t) (.next x) =
      if x = t then a else if x = z then t else p.word mem (.next x) := by
    intro x hx
    simp only [hp.word_set (.prev a) (.next x) ha hx, hp.word_set (.next t) (.next x) ht hx,
      hp.word_set (.next z) (.next x) hzn hx, hp.word_set (.prev t) (.next x) ht hx,
      reduceCtorEq, if_false, ListWord.next.injEq]
  have hprev : ∀ x ∈ nodes, p.word (p.set (p.set (p.set (p.set mem (.prev t) z) (.next z) t)
      (.next t) a) (.prev a) t) (.prev x) =
      if x = a then t else if x = t then z else p.word mem (.prev x) := by
    intro x hx
    simp only [hp.word_set (.prev a) (.prev x) ha hx, hp.word_set (.next t) (.prev x) ht hx,
      hp.word_set (.next z) (.prev x) hzn hx, hp.word_set (.prev t) (.prev x) ht hx,
      reduceCtorEq, if_false, ListWord.prev.injEq]
  have hlist : p.word (p.set (p.set (p.set (p.set mem (.prev t) z) (.next z) t)
      (.next t) a) (.prev a) t) .list = p.word mem .list := by
    simp only [hp.word_set (.prev a) .list ha trivial, hp.word_set (.next t) .list ht trivial,
      hp.word_set (.next z) .list hzn trivial, hp.word_set (.prev t) .list ht trivial,
      reduceCtorEq, if_false]
  refine ⟨⟨h.circle.insert hz hnew ⟨?_, ?_⟩ ⟨?_, ?_⟩ ?_ ?_, ?_⟩, ?_⟩
  · rw [Place.next, hnext z hzn, if_neg (hne z hzmem), if_pos rfl, hp.link_node ht]
  · rw [Place.prev, hprev t ht, if_neg (hne a List.mem_cons_self).symm, if_pos rfl,
      hp.link_node hzn]
  · rw [Place.next, hnext t ht, if_pos rfl, hp.link_node ha]
  · rw [Place.prev, hprev a ha, if_pos rfl, hp.link_node ht]
  · intro x hx hxz
    rw [Place.next, hnext x (hxs x hx), if_neg (hne x hx), if_neg hxz]
    rfl
  · intro x hx hxa
    rw [Place.prev, hprev x (hxs x hx), if_neg hxa, if_neg (hne x hx)]
    rfl
  · rw [hlist]
    exact h.head
  · intro x hx hout hxt hclear
    have hxz : x ≠ z := fun heq => hout (heq ▸ hzmem)
    have hxa : x ≠ a := fun heq => hout (heq ▸ List.mem_cons_self)
    rw [Place.Cleared, hnext x hx, hprev x hx, if_neg hxt, if_neg hxz, if_neg hxa, if_neg hxt]
    exact hclear

/-- A node is added at the end, and the links of nodes outside the list stay. -/
theorem listAdd_holds (hp : p.Separate nodes) (h : p.Holds mem xs) (hxs : ∀ x ∈ xs, x ∈ nodes)
    (ht : t ∈ nodes) (hnew : t ∉ xs) :
    p.Holds (listAdd p.host mem p.list t p.noff p.poff) (xs ++ [t]) ∧
      ∀ x ∈ nodes, x ∉ xs → x ≠ t → p.Cleared mem x →
        p.Cleared (listAdd p.host mem p.list t p.noff p.poff) x := by
  cases xs with
  | nil =>
      obtain ⟨hholds, hclear⟩ := listAdd_holds_empty hp h ht
      exact ⟨hholds, fun x hx _ => hclear x hx⟩
  | cons a xs =>
      obtain ⟨z, hz⟩ : ∃ z, (a :: xs).getLast? = some z :=
        ⟨_, List.getLast?_eq_some_getLast (by simp)⟩
      exact listAdd_holds_cons hp h hxs hz ht hnew

/-- The link words of a node are cleared. -/
theorem Place.Separate.cleared (hp : p.Separate nodes) (ht : t ∈ nodes) :
    p.Cleared (p.set (p.set mem (.next t) 0) (.prev t) 0) t := by
  have hne : ListWord.next t ≠ .prev t := nofun
  exact ⟨(hp.word_set_ne (.prev t) (.next t) hne ht ht 0).trans
    ((hp.word_set (.next t) (.next t) ht ht 0).trans (if_pos rfl)),
    (hp.word_set (.prev t) (.prev t) ht ht 0).trans (if_pos rfl)⟩

/-- The words of other nodes stay when those of a node are cleared. -/
theorem Place.Separate.word_cleared (hp : p.Separate nodes) (ht : t ∈ nodes) {x : BitVec w}
    (hx : x ∈ nodes) (hxt : x ≠ t) :
    p.word (p.set (p.set mem (.next t) 0) (.prev t) 0) (.next x) = p.word mem (.next x) ∧
      p.word (p.set (p.set mem (.next t) 0) (.prev t) 0) (.prev x) = p.word mem (.prev x) := by
  have hnext : ListWord.next x ≠ .next t := by simpa using hxt
  have hprev : ListWord.prev x ≠ .prev t := by simpa using hxt
  exact ⟨(hp.word_set_ne (.prev t) (.next x) nofun ht hx 0).trans
    (hp.word_set_ne (.next t) (.next x) hnext ht hx 0),
    (hp.word_set_ne (.prev t) (.prev x) hprev ht hx 0).trans
      (hp.word_set_ne (.next t) (.prev x) nofun ht hx 0)⟩

theorem Place.Separate.list_cleared (hp : p.Separate nodes) (ht : t ∈ nodes) :
    p.word (p.set (p.set mem (.next t) 0) (.prev t) 0) .list = p.word mem .list :=
  (hp.word_set_ne (.prev t) .list nofun ht trivial 0).trans
    (hp.word_set_ne (.next t) .list nofun ht trivial 0)

/-- The last node leaves the list. -/
theorem listRemove_holds_only (hp : p.Separate nodes) (h : p.Holds mem [t]) (ht : t ∈ nodes) :
    p.Holds (listRemove p.host mem p.list t p.noff p.poff) [] ∧
      p.Cleared (listRemove p.host mem p.list t p.noff p.poff) t ∧
      ∀ x ∈ nodes, x ≠ t → p.Cleared mem x →
        p.Cleared (listRemove p.host mem p.list t p.noff p.poff) x := by
  rw [listRemove_only hp h ht]
  refine ⟨⟨Circle.nil, ?_⟩, hp.cleared ht, ?_⟩
  · have hlist : p.word (p.set mem .list 0) .list = 0 :=
      (hp.word_set .list .list trivial trivial 0).trans (if_pos rfl)
    rw [hp.list_cleared ht, hlist]
    rfl
  · intro x hx hxt hclear
    have hwords := @Place.Separate.word_cleared w p nodes (p.set mem .list 0) t hp ht x hx hxt
    rw [Place.Cleared, hwords.1, hwords.2, hp.word_set_ne .list (.next x) nofun trivial hx,
      hp.word_set_ne .list (.prev x) nofun trivial hx]
    exact hclear

section Linked
variable {b z : BitVec w}

/-- The word of the list when a node is taken out from between `z` and `b`. -/
theorem listRemove_list (hp : p.Separate nodes) (hnext : p.word mem (.next t) = b)
    (hprev : p.word mem (.prev t) = z) (ht : t ∈ nodes) (hb : b ∈ nodes) (hz : z ∈ nodes)
    (hbt : b ≠ t) (hzt : z ≠ t) :
    p.word (listRemove p.host mem p.list t p.noff p.poff) .list =
      if t = p.word mem .list then b else p.word mem .list := by
  rw [listRemove_linked hp hnext hprev ht hb hz hbt hzt, hp.list_cleared ht]
  split
  · exact (hp.word_set .list .list trivial trivial b).trans (if_pos rfl)
  · exact (hp.word_set_ne (.prev b) .list nofun hb trivial z).trans
      (hp.word_set_ne (.next z) .list nofun hz trivial b)

/-- The words of the other nodes when a node is taken out from between `z` and `b`. -/
theorem listRemove_words (hp : p.Separate nodes) (hnext : p.word mem (.next t) = b)
    (hprev : p.word mem (.prev t) = z) (ht : t ∈ nodes) (hb : b ∈ nodes) (hz : z ∈ nodes)
    (hbt : b ≠ t) (hzt : z ≠ t) {x : BitVec w} (hx : x ∈ nodes) (hxt : x ≠ t) :
    p.word (listRemove p.host mem p.list t p.noff p.poff) (.next x) =
        (if x = z then b else p.word mem (.next x)) ∧
      p.word (listRemove p.host mem p.list t p.noff p.poff) (.prev x) =
        (if x = b then z else p.word mem (.prev x)) := by
  rw [listRemove_linked hp hnext hprev ht hb hz hbt hzt]
  have hskip (u : ListWord w) (hu : u.In nodes) (hlist : u ≠ .list) :
      p.word (if t = p.word mem .list then
        p.set (p.set (p.set mem (.next z) b) (.prev b) z) .list b
        else p.set (p.set mem (.next z) b) (.prev b) z) u =
      p.word (p.set (p.set mem (.next z) b) (.prev b) z) u := by
    split
    · exact hp.word_set_ne .list u hlist trivial hu b
    · rfl
  constructor
  · refine (hp.word_cleared ht hx hxt).1.trans ((hskip (.next x) hx nofun).trans ?_)
    simp only [hp.word_set (.prev b) (.next x) hb hx, hp.word_set (.next z) (.next x) hz hx,
      reduceCtorEq, if_false, ListWord.next.injEq]
  · refine (hp.word_cleared ht hx hxt).2.trans ((hskip (.prev x) hx nofun).trans ?_)
    simp only [hp.word_set (.prev b) (.prev x) hb hx, hp.word_set (.next z) (.prev x) hz hx,
      reduceCtorEq, if_false, ListWord.prev.injEq]

/-- A node leaves a list of others, which go on in a circle from the one behind it. -/
theorem listRemove_circle (hp : p.Separate nodes) {ys : List (BitVec w)}
    (hcircle : Circle (p.next mem) (p.prev mem) (t :: b :: ys)) (ht : t ∈ nodes)
    (hys : ∀ x ∈ b :: ys, x ∈ nodes) :
    let mem' := listRemove p.host mem p.list t p.noff p.poff
    Circle (p.next mem') (p.prev mem') (b :: ys) ∧ p.Cleared mem' t ∧
      p.word mem' .list = (if t = p.word mem .list then b else p.word mem .list) ∧
      ∀ x ∈ nodes, x ∉ t :: b :: ys → p.Cleared mem x → p.Cleared mem' x := by
  obtain ⟨z, hz⟩ : ∃ z, (b :: ys).getLast? = some z :=
    ⟨_, List.getLast?_eq_some_getLast (by simp)⟩
  have hne : ∀ x ∈ b :: ys, x ≠ t :=
    fun x hx heq => (List.nodup_cons.mp hcircle.nodup).1 (heq ▸ hx)
  have hzmem := List.mem_of_getLast? hz
  have hb := hys b List.mem_cons_self
  have hzn := hys z hzmem
  have hbt := hne b List.mem_cons_self
  have hzt := hne z hzmem
  have hnext : p.word mem (.next t) = b :=
    (Place.link_eq_some.mp (@Circle.next_inside (BitVec w) _ _ t b [] ys hcircle).1).1
  have hprev : p.word mem (.prev t) = z := (Place.link_eq_some.mp (hcircle.prev_head hz).2).1
  have hwords {x : BitVec w} := @listRemove_words w p nodes mem t b z hp hnext hprev ht hb hzn
    hbt hzt x
  refine ⟨hcircle.remove hz ⟨?_, ?_⟩ ?_ ?_, ?_, listRemove_list hp hnext hprev ht hb hzn hbt hzt,
    ?_⟩
  · rw [Place.next, (hwords hzn hzt).1, if_pos rfl, hp.link_node hb]
  · rw [Place.prev, (hwords hb hbt).2, if_pos rfl, hp.link_node hzn]
  · intro x hx hxz
    rw [Place.next, (hwords (hys x hx) (hne x hx)).1, if_neg hxz]
    rfl
  · intro x hx hxb
    rw [Place.prev, (hwords (hys x hx) (hne x hx)).2, if_neg hxb]
    rfl
  · rw [listRemove_linked hp hnext hprev ht hb hzn hbt hzt]
    exact hp.cleared ht
  · intro x hx hout hclear
    have hxt : x ≠ t := fun heq => hout (heq ▸ List.mem_cons_self)
    have hxz : x ≠ z := fun heq => hout (List.mem_cons_of_mem t (heq ▸ hzmem))
    have hxb : x ≠ b := fun heq => hout (List.mem_cons_of_mem t (heq ▸ List.mem_cons_self))
    rw [Place.Cleared, (hwords hx hxt).1, (hwords hx hxt).2, if_neg hxz, if_neg hxb]
    exact hclear

end Linked

/-- A node is deleted, its links are cleared, and those of nodes outside the list stay. -/
theorem listRemove_holds (hp : p.Separate nodes) (h : p.Holds mem xs) (hxs : ∀ x ∈ xs, x ∈ nodes)
    (ht : t ∈ xs) :
    p.Holds (listRemove p.host mem p.list t p.noff p.poff) (xs.erase t) ∧
      p.Cleared (listRemove p.host mem p.list t p.noff p.poff) t ∧
      ∀ x ∈ nodes, x ∉ xs → p.Cleared mem x →
        p.Cleared (listRemove p.host mem p.list t p.noff p.poff) x := by
  have htn := hxs t ht
  obtain ⟨l, l', rfl⟩ := List.append_of_mem ht
  have htl : t ∉ l := by
    intro hmem
    exact (List.nodup_append.mp h.circle.nodup).2.2 t hmem t List.mem_cons_self rfl
  have herase : (l ++ t :: l').erase t = l ++ l' := by
    rw [List.erase_append_right _ htl, List.erase_cons_head]
  have hcircle : Circle (p.next mem) (p.prev mem) (t :: (l' ++ l)) :=
    (circle_append_comm l (t :: l')).mp h.circle
  rw [herase]
  cases hrest : l' ++ l with
  | nil =>
      obtain ⟨rfl, rfl⟩ := List.append_eq_nil_iff.mp hrest
      obtain ⟨hholds, hclear, hout⟩ := listRemove_holds_only hp h htn
      exact ⟨hholds, hclear, fun x hx hnot => hout x hx fun heq => hnot (heq ▸ ht)⟩
  | cons b ys =>
      rw [hrest] at hcircle
      have hmem : ∀ x, x ∈ t :: b :: ys ↔ x ∈ l ++ t :: l' := by
        intro x
        rw [← hrest, List.mem_cons, List.mem_append, List.mem_append, List.mem_cons]
        tauto
      have hys : ∀ x ∈ b :: ys, x ∈ nodes := fun x hx =>
        hxs x ((hmem x).mp (List.mem_cons_of_mem t hx))
      obtain ⟨hcircle', hclear, hlist, hout⟩ := listRemove_circle hp hcircle htn hys
      refine ⟨⟨?_, ?_⟩, hclear, fun x hx hnot => hout x hx (mt (hmem x).mp hnot)⟩
      · rw [circle_append_comm, hrest]
        exact hcircle'
      · rw [hlist]
        -- the word of the list goes on to the next node when the first one is taken out
        cases l with
        | nil =>
            have hhead : t = p.word mem .list := h.head_word.1.symm
            rw [List.append_nil] at hrest
            rw [if_pos hhead, hp.link_node (hys b List.mem_cons_self), List.nil_append, hrest]
            rfl
        | cons c l =>
            have hhead : p.word mem .list = c := h.head_word.1
            have hct : t ≠ p.word mem .list := by
              rw [hhead]
              exact fun heq => htl (heq ▸ List.mem_cons_self)
            rw [if_neg hct]
            exact h.head

end

inductive ListOp (w : Nat)
  | add (t : BitVec w)
  | remove (t : BitVec w)

/-- The memory after some operations, the sequence they stand for, and the nodes that were
removed and not added again. -/
structure History (w : Nat) where
  mem : BitVec w → UInt8
  seq : List (BitVec w)
  removed : List (BitVec w)

def Place.step (p : Place w) (s : History w) : ListOp w → History w
  | .add t =>
    { mem := listAdd p.host s.mem p.list t p.noff p.poff
      seq := s.seq ++ [t]
      removed := s.removed.filter (· ≠ t) }
  | .remove t =>
    { mem := listRemove p.host s.mem p.list t p.noff p.poff
      seq := s.seq.erase t
      removed := t :: s.removed }

/-- Nodes that are not in the list are added, and nodes that are in it are removed. -/
def History.Allowed (nodes : Set (BitVec w)) (s : History w) : ListOp w → Prop
  | .add t => t ∈ nodes ∧ t ∉ s.seq
  | .remove t => t ∈ s.seq

structure History.Inv (p : Place w) (nodes : Set (BitVec w)) (s : History w) : Prop where
  holds : p.Holds s.mem s.seq
  seq : ∀ x ∈ s.seq, x ∈ nodes
  removed : ∀ x ∈ s.removed, x ∈ nodes ∧ x ∉ s.seq ∧ p.Cleared s.mem x

section
variable {p : Place w} {nodes : Set (BitVec w)} {mem : BitVec w → UInt8} {xs : List (BitVec w)}

theorem History.Inv.step (hp : p.Separate nodes) {s : History w} (h : s.Inv p nodes)
    (op : ListOp w) (hop : s.Allowed nodes op) : (p.step s op).Inv p nodes := by
  cases op with
  | add t =>
      obtain ⟨hholds, hcleared⟩ := listAdd_holds hp h.holds h.seq hop.1 hop.2
      refine ⟨hholds, ?_, ?_⟩
      · intro x hx
        rcases List.mem_append.mp hx with hx | hx
        · exact h.seq x hx
        · exact List.mem_singleton.mp hx ▸ hop.1
      · intro x hx
        obtain ⟨hx, hxt⟩ := List.mem_filter.mp hx
        have hne : x ≠ t := of_decide_eq_true hxt
        obtain ⟨hnode, hout, hclear⟩ := h.removed x hx
        refine ⟨hnode, ?_, hcleared x hnode hout hne hclear⟩
        intro hmem
        rcases List.mem_append.mp hmem with hmem | hmem
        · exact hout hmem
        · exact hne (List.mem_singleton.mp hmem)
  | remove t =>
      obtain ⟨hholds, hself, hcleared⟩ := listRemove_holds hp h.holds h.seq hop
      refine ⟨hholds, fun x hx => h.seq x (List.mem_of_mem_erase hx), ?_⟩
      intro x hx
      rcases List.mem_cons.mp hx with rfl | hx
      · exact ⟨h.seq x hop, List.Nodup.not_mem_erase h.holds.circle.nodup, hself⟩
      · obtain ⟨hnode, hout, hclear⟩ := h.removed x hx
        exact ⟨hnode, fun hmem => hout (List.mem_of_mem_erase hmem), hcleared x hnode hout hclear⟩

/-- The lists refine sequences: whatever nodes are added and removed, the memory holds the
sequence that has them appended and deleted, and a removed node has no links left. -/
theorem list_refines (hp : p.Separate nodes) (h : p.Holds mem xs) (hxs : ∀ x ∈ xs, x ∈ nodes)
    (s : History w) (hrun : Reachable p.step (History.Allowed nodes) ⟨mem, xs, []⟩ s) :
    p.Holds s.mem s.seq ∧ ∀ x ∈ s.removed, p.Cleared s.mem x := by
  have hinit : History.Inv p nodes ⟨mem, xs, []⟩ := ⟨h, hxs, nofun⟩
  have hinv := hrun.invariant hinit fun s op hs hop => hs.step hp op hop
  exact ⟨hinv.holds, fun x hx => (hinv.removed x hx).2.2⟩

end

/-- Two nodes of two words each, and a list in cleared memory. -/
def twoNodes : Place 32 :=
  { host := ⟨.little, by decide⟩, list := 0x10, noff := 0, poff := 4 }

theorem separate_twoNodes : twoNodes.Separate fun x => x = 0x100 ∨ x = 0x200 := by
  have hapart : ∀ u ∈ [ListWord.list, .next 0x100, .next 0x200, .prev 0x100, .prev 0x200],
      ∀ v ∈ [ListWord.list, .next 0x100, .next 0x200, .prev 0x100, .prev 0x200], u ≠ v →
      ∀ i < 4, ∀ j < 4,
        twoNodes.addr u + BitVec.ofNat 32 i ≠ twoNodes.addr v + BitVec.ofNat 32 j := by
    decide +kernel
  have hmem (u : ListWord 32) (hu : u.In fun x => x = 0x100 ∨ x = 0x200) :
      u ∈ [ListWord.list, .next 0x100, .next 0x200, .prev 0x100, .prev 0x200] := by
    cases u with
    | list => exact List.mem_cons_self
    | next node =>
        rcases hu with rfl | rfl
        · decide
        · decide
    | prev node =>
        rcases hu with rfl | rfl
        · decide
        · decide
  refine ⟨?_, fun u v hu hv => hapart u (hmem u hu) v (hmem v hv)⟩
  rintro (h | h)
  · cases h
  · cases h

theorem list_refines_twoNodes :
    let s := twoNodes.step (twoNodes.step (twoNodes.step ⟨fun _ => 0, [], []⟩ (.add 0x100))
      (.add 0x200)) (.remove 0x100)
    twoNodes.Holds s.mem s.seq ∧ ∀ x ∈ s.removed, twoNodes.Cleared s.mem x := by
  have hempty : twoNodes.Holds (fun _ => 0) [] := ⟨Circle.nil, by decide +kernel⟩
  refine list_refines separate_twoNodes hempty nofun _ ?_
  refine .step (.step (.step .init ?_) ?_) ?_
  · exact ⟨Or.inl rfl, List.not_mem_nil⟩
  · exact ⟨Or.inr rfl, by decide⟩
  · exact List.mem_cons_self

end Plo.Lib
