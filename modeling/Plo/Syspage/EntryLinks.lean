import Plo.Base.Links
import Plo.Syspage.Maps

/-!
The entries of a map as they are linked in memory. A new entry is put before the first
one that starts later, and before the head, that is at the end, when there is none. The
scan tells the two by its position when it ends: at the head only when it came round.
-/
namespace Plo.Syspage
variable {w : Nat} {ν : Type}

section
variable {newEntry : ν} {before after : List ν}

/-- A list sorted by the starts stays sorted when an entry is put after those that start no
later. -/
theorem pairwise_insert {start : ν → BitVec w}
    (hsorted : (before ++ after).Pairwise fun a b => start a ≤ start b)
    (hbefore : ∀ x ∈ before, start x ≤ start newEntry)
    (hafter : ∀ x ∈ after, start newEntry < start x) :
    (before ++ newEntry :: after).Pairwise fun a b => start a ≤ start b := by
  obtain ⟨hfirst, hlast, hcross⟩ := List.pairwise_append.mp hsorted
  refine List.pairwise_append.mpr ⟨hfirst, List.pairwise_cons.mpr ⟨?_, hlast⟩, ?_⟩
  · intro x hx
    exact BitVec.le_of_lt (hafter x hx)
  · intro x hx y hy
    rcases List.mem_cons.mp hy with rfl | hy
    · exact hbefore x hx
    · exact hcross x hx y hy

/-- The sequence of entries that the maps of the system page are modelled with. -/
theorem map_between {ent : ν → MapEnt w}
    (hbefore : ∀ x ∈ before, (ent x).start ≤ (ent newEntry).start)
    (hafter : ∀ x ∈ after, (ent newEntry).start < (ent x).start) :
    (before ++ newEntry :: after).map ent =
      sortedInsert ((before ++ after).map ent) (ent newEntry) := by
  unfold sortedInsert
  induction before with
  | nil =>
      cases after with
      | nil => rfl
      | cons a after =>
          have ha : (ent newEntry).start < (ent a).start := hafter a List.mem_cons_self
          simp only [List.nil_append, List.map_cons, List.orderedInsert_cons, if_pos ha]
  | cons b before ih =>
      have hb : ¬(ent newEntry).start < (ent b).start :=
        BitVec.not_lt.mpr (hbefore b List.mem_cons_self)
      have hrest := ih fun x hx => hbefore x (List.mem_cons_of_mem b hx)
      simp only [List.cons_append, List.map_cons, hrest, List.orderedInsert_cons, if_neg hb]

end

variable [DecidableEq ν]

/-- The entries of a map: their links, where they start, and the word that points to the
first of them. -/
structure EntryLinks (w : Nat) (ν : Type) where
  next : ν → Option ν
  prev : ν → Option ν
  start : ν → BitVec w
  entries : Option ν

def EntryLinks.setNext (m : EntryLinks w ν) (e : ν) (link : Option ν) : EntryLinks w ν :=
  { m with next := Function.update m.next e link }

def EntryLinks.setPrev (m : EntryLinks w ν) (e : ν) (link : Option ν) : EntryLinks w ν :=
  { m with prev := Function.update m.prev e link }

/-- The stores that put the new entry before `e`. -/
def linkBefore (m : EntryLinks w ν) (e newEntry : ν) : Option (EntryLinks w ν) := do
  let m := m.setNext newEntry (some e)
  let m := m.setPrev newEntry (m.prev e)
  let prev ← m.prev e
  let m := m.setNext prev (some newEntry)
  some (m.setPrev e (some newEntry))

/-- The stores after the scan, which are in another order. -/
def linkLast (m : EntryLinks w ν) (e newEntry : ν) : Option (EntryLinks w ν) := do
  let m := m.setPrev newEntry (m.prev e)
  let prev ← m.prev e
  let m := m.setNext prev (some newEntry)
  let m := m.setNext newEntry (some e)
  some (m.setPrev e (some newEntry))

/-- The scan: the links and the entry it ends at. A link that is NULL and is followed
makes it fail, as does a scan that does not end within the fuel. -/
def insertScan (newEntry : ν) : Nat → EntryLinks w ν → ν → Option (EntryLinks w ν × ν)
  | 0, _, _ => none
  | fuel + 1, m, e =>
    if m.start newEntry < m.start e then do
      let m ← linkBefore m e newEntry
      some (if some e = m.entries then { m with entries := some newEntry } else m, e)
    else do
      let e ← m.next e
      if some e ≠ m.entries then insertScan newEntry fuel m e else some (m, e)

/-- `syspage_sortedInsert`. -/
def linkedInsert (fuel : Nat) (m : EntryLinks w ν) (newEntry : ν) : Option (EntryLinks w ν) :=
  match m.entries with
  | none =>
    some { (m.setNext newEntry (some newEntry)).setPrev newEntry (some newEntry) with
      entries := some newEntry }
  | some e => do
    let (m, e) ← insertScan newEntry fuel m e
    if some e = m.entries then linkLast m e newEntry else some m

/-- The entries of the list, linked in a circle in this order from the head on. -/
structure EntryLinks.Holds (m : EntryLinks w ν) (xs : List ν) : Prop where
  circle : Circle m.next m.prev xs
  entries : m.entries = xs.head?

section
variable {m : EntryLinks w ν} {e newEntry z : ν} {xs : List ν}

/-- What either order of the stores makes of the links. -/
def EntryLinks.linked (m : EntryLinks w ν) (z e newEntry : ν) : EntryLinks w ν :=
  { m with
    next := Function.update (Function.update m.next z (some newEntry)) newEntry (some e)
    prev := Function.update (Function.update m.prev e (some newEntry)) newEntry (some z) }

theorem linkBefore_eq (hprev : m.prev e = some z) (he : e ≠ newEntry) (hz : z ≠ newEntry) :
    linkBefore m e newEntry = some (m.linked z e newEntry) := by
  simp only [linkBefore, EntryLinks.setNext, EntryLinks.setPrev, hprev,
    Function.update_of_ne he, Option.bind_eq_bind, Option.bind_some, EntryLinks.linked,
    Function.update_comm hz, Function.update_comm he]

theorem linkLast_eq (hprev : m.prev e = some z) (he : e ≠ newEntry) :
    linkLast m e newEntry = some (m.linked z e newEntry) := by
  simp only [linkLast, EntryLinks.setNext, EntryLinks.setPrev, hprev,
    Function.update_of_ne he, Option.bind_eq_bind, Option.bind_some, EntryLinks.linked,
    Function.update_comm he]

theorem circle_linked (h : Circle m.next m.prev (e :: xs)) (hz : (e :: xs).getLast? = some z)
    (hnew : newEntry ∉ e :: xs) :
    Circle (m.linked z e newEntry).next (m.linked z e newEntry).prev (e :: (xs ++ [newEntry])) := by
  have hne : ∀ x ∈ e :: xs, x ≠ newEntry := fun x hx heq => hnew (heq ▸ hx)
  have hez := hne z (List.mem_of_getLast? hz)
  have hee := hne e List.mem_cons_self
  refine h.insert hz hnew ⟨?_, ?_⟩ ⟨?_, ?_⟩ ?_ ?_
  · simp [EntryLinks.linked, hez]
  · simp [EntryLinks.linked]
  · simp [EntryLinks.linked]
  · simp [EntryLinks.linked, hee]
  · intro x hx hxz
    simp [EntryLinks.linked, hne x hx, hxz]
  · intro x hx hxe
    simp [EntryLinks.linked, hne x hx, hxe]

/-- The stores before the scan ends put the new entry before the one it is at. -/
theorem linkBefore_circle {l l' : List ν} {d : ν} (h : Circle m.next m.prev (l ++ d :: l'))
    (hnew : newEntry ∉ l ++ d :: l') :
    ∃ z, linkBefore m d newEntry = some (m.linked z d newEntry) ∧
      linkLast m d newEntry = some (m.linked z d newEntry) ∧
      Circle (m.linked z d newEntry).next (m.linked z d newEntry).prev
        (l ++ newEntry :: d :: l') := by
  obtain ⟨z, hz⟩ : ∃ z, (d :: (l' ++ l)).getLast? = some z :=
    ⟨_, List.getLast?_eq_some_getLast (by simp)⟩
  have hcircle : Circle m.next m.prev (d :: (l' ++ l)) := (circle_append_comm l (d :: l')).mp h
  have hnew' : newEntry ∉ d :: (l' ++ l) := by
    intro hmem
    exact hnew (List.perm_append_comm.mem_iff.mp hmem)
  have hne : ∀ x ∈ d :: (l' ++ l), x ≠ newEntry := fun x hx heq => hnew' (heq ▸ hx)
  have hprev := (hcircle.prev_head hz).2
  have hd := hne d List.mem_cons_self
  refine ⟨z, linkBefore_eq hprev hd (hne z (List.mem_of_getLast? hz)), linkLast_eq hprev hd, ?_⟩
  have hlinked := circle_linked hcircle hz hnew'
  have happend : d :: (l' ++ l ++ [newEntry]) = (d :: l') ++ (l ++ [newEntry]) := by simp
  rw [happend, circle_append_comm, List.append_assoc] at hlinked
  exact hlinked

/-- The scan ends at an entry that starts later, and the new entry is put before it. -/
theorem insertScan_stop (newEntry : ν) (fuel : Nat) (seen : List ν) {rest : List ν}
    (h : m.Holds (seen ++ e :: rest)) (hnew : newEntry ∉ seen ++ e :: rest)
    (hlt : m.start newEntry < m.start e) :
    ∃ m', insertScan newEntry (fuel + 1) m e = some (m', e) ∧
      m'.Holds (seen ++ newEntry :: e :: rest) ∧ m'.start = m.start := by
  obtain ⟨z, hlink, -, hcircle⟩ := linkBefore_circle h.circle hnew
  have hscan : insertScan newEntry (fuel + 1) m e =
      some (if some e = (m.linked z e newEntry).entries then
        { m.linked z e newEntry with entries := some newEntry }
        else m.linked z e newEntry, e) := by
    simp only [insertScan, if_pos hlt, hlink, Option.bind_eq_bind, Option.bind_some]
  refine ⟨_, hscan, ?_, ?_⟩
  · have hhead : m.entries = (seen ++ e :: rest).head? := h.entries
    have hdistinct := h.circle.nodup
    cases seen with
    | nil =>
        have hfirst : some e = (m.linked z e newEntry).entries := hhead.symm
        rw [if_pos hfirst]
        exact ⟨hcircle, rfl⟩
    | cons a seen =>
        have hfirst : some e ≠ (m.linked z e newEntry).entries := by
          intro heq
          have hea : e = a := Option.some.inj (heq.trans hhead)
          rw [List.cons_append, List.nodup_cons] at hdistinct
          exact hdistinct.1 (hea ▸ by simp)
        rw [if_neg hfirst]
        exact ⟨hcircle, hhead⟩
  · split <;> rfl

/-- The scan ends at the head when it comes round. -/
theorem insertScan_last (newEntry : ν) (fuel : Nat) (seen : List ν) (h : m.Holds (seen ++ [e]))
    (hle : ¬m.start newEntry < m.start e) :
    ∃ a, m.entries = some a ∧ insertScan newEntry (fuel + 1) m e = some (m, a) := by
  obtain ⟨a, ys, hlist⟩ : ∃ a ys, seen ++ [e] = a :: ys := by
    cases seen with
    | nil => exact ⟨e, [], rfl⟩
    | cons a seen => exact ⟨a, seen ++ [e], rfl⟩
  have hlast : (a :: ys).getLast? = some e := by
    rw [← hlist, List.getLast?_concat]
  have hnext : m.next e = some a := ((hlist ▸ h.circle).prev_head hlast).1
  have hhead : m.entries = some a := by
    rw [h.entries, hlist]
    rfl
  exact ⟨a, hhead, by simp [insertScan, hle, hnext, hhead]⟩

/-- The scan goes on to the next entry. -/
theorem insertScan_next (newEntry : ν) (fuel : Nat) (seen : List ν) {b : ν} {rest : List ν}
    (h : m.Holds (seen ++ e :: b :: rest)) (hle : ¬m.start newEntry < m.start e) :
    insertScan newEntry (fuel + 1) m e = insertScan newEntry fuel m b := by
  have hnext : m.next e = some b := h.circle.next_inside.1
  have hdistinct := h.circle.nodup
  have hb : some b ≠ m.entries := by
    rw [h.entries]
    cases seen with
    | nil =>
        intro heq
        cases heq
        exact (List.nodup_cons.mp hdistinct).1 List.mem_cons_self
    | cons a seen =>
        intro heq
        cases heq
        exact (List.nodup_cons.mp hdistinct).1 (by simp)
  simp only [insertScan, if_neg hle, hnext, Option.bind_eq_bind, Option.bind_some, if_pos hb]

/-- Where the scan ends: before the first entry that starts later, with the new entry put
there, or at the head with nothing stored. -/
theorem insertScan_spec (newEntry : ν) (fuel : Nat) (seen : List ν) {rest : List ν}
    (h : m.Holds (seen ++ e :: rest))
    (hnew : newEntry ∉ seen ++ e :: rest)
    (hseen : ∀ x ∈ seen, m.start x ≤ m.start newEntry) (hfuel : rest.length < fuel) :
    (∃ l d l' m', seen ++ e :: rest = l ++ d :: l' ∧
        (∀ x ∈ l, m.start x ≤ m.start newEntry) ∧ m.start newEntry < m.start d ∧
        insertScan newEntry fuel m e = some (m', d) ∧ m'.Holds (l ++ newEntry :: d :: l') ∧
        m'.start = m.start) ∨
      (∀ x ∈ seen ++ e :: rest, m.start x ≤ m.start newEntry) ∧
        ∃ a, m.entries = some a ∧ insertScan newEntry fuel m e = some (m, a) := by
  induction fuel generalizing seen e rest with
  | zero => exact absurd hfuel (Nat.not_lt_zero _)
  | succ fuel ih =>
      by_cases hlt : m.start newEntry < m.start e
      · obtain ⟨m', hscan, hholds, hstart⟩ := insertScan_stop newEntry fuel seen h hnew hlt
        exact Or.inl ⟨seen, e, rest, m', rfl, hseen, hlt, hscan, hholds, hstart⟩
      · have hseen' : ∀ x ∈ seen ++ [e], m.start x ≤ m.start newEntry := by
          intro x hx
          rw [List.mem_append, List.mem_singleton] at hx
          rcases hx with hx | rfl
          · exact hseen x hx
          · exact BitVec.not_lt.mp hlt
        cases rest with
        | nil => exact Or.inr ⟨hseen', insertScan_last newEntry fuel seen h hlt⟩
        | cons b rest =>
            have hlist : seen ++ e :: b :: rest = (seen ++ [e]) ++ b :: rest := by simp
            rw [insertScan_next newEntry fuel seen h hlt, hlist]
            rw [hlist] at h hnew
            exact ih _ h hnew hseen' (Nat.lt_of_succ_lt_succ hfuel)

/-- The new entry is put between the entries that start no later and those that start
later. -/
theorem linkedInsert_between (h : m.Holds xs)
    (hsorted : xs.Pairwise fun a b => m.start a ≤ m.start b) (hnew : newEntry ∉ xs) {fuel : Nat}
    (hfuel : xs.length ≤ fuel) :
    ∃ m' before after, linkedInsert fuel m newEntry = some m' ∧ m'.start = m.start ∧
      xs = before ++ after ∧ m'.Holds (before ++ newEntry :: after) ∧
      (∀ x ∈ before, m.start x ≤ m.start newEntry) ∧
      ∀ x ∈ after, m.start newEntry < m.start x := by
  cases xs with
  | nil =>
      have hrun : linkedInsert fuel m newEntry =
          some { (m.setNext newEntry (some newEntry)).setPrev newEntry (some newEntry) with
            entries := some newEntry } := by
        have hhead : m.entries = none := h.entries
        simp only [linkedInsert, hhead]
      refine ⟨_, [], [], hrun, rfl, rfl, ⟨?_, rfl⟩, nofun, nofun⟩
      exact Circle.singleton (Function.update_self _ _ _) (Function.update_self _ _ _)
  | cons a xs =>
      have hhead : m.entries = some a := h.entries
      have hscan := insertScan_spec newEntry fuel [] h hnew nofun hfuel
      rw [List.nil_append] at hscan
      rcases hscan with ⟨l, d, l', m', hlist, hl, hlt, hscan, hm', hstart⟩ | ⟨hall, a', ha', hscan⟩
      · have hd : some d ≠ m'.entries := by
          rw [hm'.entries]
          intro heq
          have hnodup := hm'.circle.nodup
          cases l with
          | nil =>
              cases heq
              exact (List.nodup_cons.mp hnodup).1 List.mem_cons_self
          | cons b l =>
              cases heq
              exact (List.nodup_cons.mp hnodup).1 (by simp)
        have hrun : linkedInsert fuel m newEntry = some m' := by
          simp only [linkedInsert, hhead, hscan, Option.bind_eq_bind, Option.bind_some, if_neg hd]
        refine ⟨m', l, d :: l', hrun, hstart, hlist, hm', hl, ?_⟩
        intro x hx
        rw [hlist] at hsorted
        have hd' := List.pairwise_cons.mp (List.pairwise_append.mp hsorted).2.1
        rcases List.mem_cons.mp hx with rfl | hx
        · exact hlt
        · exact Nat.lt_of_lt_of_le hlt (hd'.1 x hx)
      · cases hhead.symm.trans ha'
        obtain ⟨z, -, hlink, hcircle⟩ := linkBefore_circle (l := []) h.circle hnew
        have hrun : linkedInsert fuel m newEntry = some (m.linked z a newEntry) := by
          simp only [linkedInsert, hhead, hscan, Option.bind_eq_bind, Option.bind_some, if_true,
            hlink]
        refine ⟨_, a :: xs, [], hrun, rfl, (List.append_nil _).symm, ⟨?_, hhead⟩, hall, nofun⟩
        exact (circle_append_comm [newEntry] (a :: xs)).mp hcircle

/-- The links stay a circle read from the head on, sorted by the starts, with the new entry
behind those that start where it does. -/
theorem linkedInsert_sorted (h : m.Holds xs)
    (hsorted : xs.Pairwise fun a b => m.start a ≤ m.start b) (hnew : newEntry ∉ xs) (fuel : Nat)
    (hfuel : xs.length ≤ fuel) :
    ∃ m' before after, linkedInsert fuel m newEntry = some m' ∧ m'.start = m.start ∧
      xs = before ++ after ∧ m'.Holds (before ++ newEntry :: after) ∧
      (before ++ newEntry :: after).Pairwise (fun a b => m'.start a ≤ m'.start b) ∧
      (∀ x ∈ before, m.start x ≤ m.start newEntry) ∧
      ∀ x ∈ after, m.start newEntry < m.start x := by
  obtain ⟨m', before, after, hrun, hstart, rfl, hm', hbefore, hafter⟩ :=
    linkedInsert_between h hsorted hnew hfuel
  refine ⟨m', before, after, hrun, hstart, rfl, hm', ?_, hbefore, hafter⟩
  rw [hstart]
  exact pairwise_insert hsorted hbefore hafter

/-- Two entries of which one starts where a third does that is not in the list. -/
def equalStarts : EntryLinks 32 Nat :=
  { next := fun e => if e < 2 then some (1 - e) else none
    prev := fun e => if e < 2 then some (1 - e) else none
    start := fun e => if e = 1 then 0x2000 else 0x1000
    entries := some 0 }

theorem linkedInsert_equalStarts :
    ∃ m' before after, linkedInsert 2 equalStarts 2 = some m' ∧ m'.start = equalStarts.start ∧
      [0, 1] = before ++ after ∧ m'.Holds (before ++ 2 :: after) ∧
      (before ++ 2 :: after).Pairwise (fun a b => m'.start a ≤ m'.start b) ∧
      (∀ x ∈ before, equalStarts.start x ≤ equalStarts.start 2) ∧
      ∀ x ∈ after, equalStarts.start 2 < equalStarts.start x := by
  have hcircle : Circle equalStarts.next equalStarts.prev [0, 1] := by
    refine ⟨by decide, (chain_cons_iff _ _ _).mpr ⟨?_, ?_⟩⟩
    · exact List.isChain_pair.mpr ⟨rfl, rfl⟩
    · rintro z ⟨⟩
      exact ⟨rfl, rfl⟩
  exact linkedInsert_sorted ⟨hcircle, rfl⟩ (by decide) (by decide) 2 (by decide)

/-- The links refine the insertion into the sequence. -/
theorem linkedInsert_refines (h : m.Holds xs)
    (hsorted : xs.Pairwise fun a b => m.start a ≤ m.start b) (hnew : newEntry ∉ xs) {fuel : Nat}
    (hfuel : xs.length ≤ fuel) {ent : ν → MapEnt w} (hent : ∀ x, (ent x).start = m.start x) :
    ∃ m' ys, linkedInsert fuel m newEntry = some m' ∧ m'.Holds ys ∧
      ys.map ent = sortedInsert (xs.map ent) (ent newEntry) := by
  obtain ⟨m', before, after, hrun, -, rfl, hm', hbefore, hafter⟩ :=
    linkedInsert_between h hsorted hnew hfuel
  refine ⟨m', _, hrun, hm', map_between ?_ ?_⟩
  · intro x hx
    rw [hent, hent]
    exact hbefore x hx
  · intro x hx
    rw [hent, hent]
    exact hafter x hx

end

end Plo.Syspage
