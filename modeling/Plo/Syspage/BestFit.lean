import Plo.Syspage.Entries

/-!
Where the best fit puts an entry. The gaps of a map start at the map's start and
at the end of each entry, rounded up; the search subtracts addresses as unsigned
words, so a rounding that jumps over the next entry, or over the end of the map,
gives an enormous gap. Such a gap is chosen only if no real one was found.
-/
namespace Plo.Syspage
variable {w : Nat} {σ : Type}

def MapEnt.lo (e : MapEnt w) : Nat := e.start.toNat
def MapEnt.hi (e : MapEnt w) : Nat := e.end_.toNat

/-- Entries in ascending order, apart from each other and inside the map. -/
def SysMap.Packed (map : SysMap w) : Prop :=
  Plo.Packed MapEnt.lo MapEnt.hi map.end_.toNat map.start.toNat map.entries

/-- The addresses from `a` on, `size` of them, lie between `l` and `u` and in no
entry of the list. -/
def FitsIn (size l u : Nat) (es : List (MapEnt w)) (a : Nat) : Prop :=
  l ≤ a ∧ a + size ≤ u ∧ ∀ e ∈ es, a + size ≤ e.lo ∨ e.hi ≤ a

def SysMap.Fits (map : SysMap w) (size : BitVec w) (a : Nat) : Prop :=
  FitsIn size.toNat map.start.toNat map.end_.toNat map.entries a

/-- Rounding `a` up leaves no bit of the address behind. -/
def Rounds (align : BitVec 32) (a : BitVec w) : Prop := a ≤ alignAddr a align

/-- No rounding jumps over the next entry or over the end of the map. A rounding
into the next entry is harmless as long as the requested range does not wrap. -/
def NoSkip (size : BitVec w) (align : BitVec 32) (u : BitVec w) :
    BitVec w → List (MapEnt w) → Prop
  | a, [] => alignAddr a align ≤ u
  | a, e :: es =>
    (alignAddr a align ≤ e.start ∨
      alignAddr a align < e.end_ ∧ (alignAddr a align).toNat + size.toNat < 2 ^ w) ∧
      NoSkip size align u e.end_ es

/-- The best fit is asked for something it can answer: every rounding is exact,
and either an aligned place exists, or no rounding jumps too far. -/
structure SysMap.BestFitSafe (map : SysMap w) (size : BitVec w) (align : BitVec 32) : Prop where
  rounds : Rounds align map.start ∧ ∀ e ∈ map.entries, Rounds align e.end_
  place : (∃ a, AlignedTo align a ∧ map.Fits size a) ∨
    (map.entries ≠ [] ∧ NoSkip size align map.end_ map.start map.entries)

/-- The search as one pass over the gaps, the last of which ends with the map. -/
def bestFitScan (size : BitVec w) (align : BitVec 32) (u : BitVec w) :
    BitVec w → List (MapEnt w) → Best w → Best w
  | a, [], best => best.offer size (alignAddr a align) u
  | a, e :: es, best =>
    bestFitScan size align u e.end_ es (best.turn size (alignAddr a align) e)

theorem bestFitScan_eq (size : BitVec w) (align : BitVec 32) (u a : BitVec w)
    (es : List (MapEnt w)) (best : Best w) :
    bestFitScan size align u a es best =
      (bestFitLoop size align es (alignAddr a align) best).offer size
        (alignAddr ((es.getLast?.map (·.end_)).getD a) align) u := by
  induction es generalizing a best with
  | nil => rfl
  | cons e es ih =>
      simp only [bestFitScan, ih, bestFitLoop, List.getLast?_cons]
      cases es.getLast? <;> rfl

theorem FitsIn.skip {size l u : Nat} {e : MapEnt w} {es : List (MapEnt w)} {a : Nat}
    (h : FitsIn size e.hi u es a) (hl : l ≤ e.hi) : FitsIn size l u (e :: es) a := by
  refine ⟨hl.trans h.1, h.2.1, ?_⟩
  intro f hf
  cases List.mem_cons.mp hf with
  | inl heq =>
    subst heq
    exact Or.inr h.1
  | inr hf =>
    exact h.2.2 f hf

theorem fitsIn_of_gap {size l u : Nat} {e : MapEnt w} {es : List (MapEnt w)} {a : Nat}
    (h : Packed MapEnt.lo MapEnt.hi u l (e :: es)) (hl : l ≤ a) (ha : a + size ≤ e.lo) :
    FitsIn size l u (e :: es) a := by
  have he := h.mem List.mem_cons_self
  refine ⟨hl, by omega, ?_⟩
  intro f hf
  cases List.mem_cons.mp hf with
  | inl heq =>
    subst heq
    exact Or.inl ha
  | inr hf =>
    have hf := h.2.2.mem hf
    exact Or.inl (by have := he.2.1; omega)

section Offer
variable {size t n : BitVec w}

/-- What a taken offer is: a real gap, or one turn of the word too long. -/
theorem offer_cases (best : Best w) (size t n : BitVec w) :
    best.offer size t n = best ∨
    (best.offer size t n = ⟨t, n - t⟩ ∧ (n - t).toNat < best.sz.toNat ∧
      ((t.toNat + size.toNat ≤ n.toNat ∧ (n - t).toNat = n.toNat - t.toNat) ∨
        (n.toNat < t.toNat ∧ (n - t).toNat + t.toNat = 2 ^ w + n.toNat))) := by
  unfold Best.offer
  simp only
  split_ifs with h
  · refine Or.inr ⟨rfl, BitVec.lt_def.mp h.1, ?_⟩
    have hsize := BitVec.le_def.mp h.2
    rcases toNat_sub_cases n t with ⟨hle, heq⟩ | ⟨hlt, heq⟩
    · exact Or.inl ⟨by omega, heq⟩
    · exact Or.inr ⟨hlt, heq⟩
  · exact Or.inl rfl

/-- A real gap that is long enough is taken if it is shorter. -/
theorem offer_of_gap (best : Best w) (hgap : t.toNat + size.toNat ≤ n.toNat) :
    (best.offer size t n = ⟨t, n - t⟩ ∧ (n - t).toNat = n.toNat - t.toNat ∧
        n.toNat - t.toNat < best.sz.toNat) ∨
      (best.offer size t n = best ∧ best.sz.toNat ≤ n.toNat - t.toNat) := by
  have hsub : (n - t).toNat = n.toNat - t.toNat :=
    BitVec.toNat_sub_of_le (BitVec.le_def.mpr (by omega))
  unfold Best.offer
  simp only
  split_ifs with h
  · have hlt := BitVec.lt_def.mp h.1
    exact Or.inl ⟨rfl, hsub, by omega⟩
  · refine Or.inr ⟨rfl, ?_⟩
    by_contra hlt
    exact h ⟨BitVec.lt_def.mpr (by omega), BitVec.le_def.mpr (by omega)⟩

/-- The same for the gap before an entry; a wrapped one starts at or after the
end of that entry, or is asked for a range that wraps. -/
theorem turn_cases (best : Best w) (size t : BitVec w) (e : MapEnt w) :
    best.turn size t e = best ∨
    (best.turn size t e = ⟨t, e.start - t⟩ ∧ (e.start - t).toNat < best.sz.toNat ∧
      ((t.toNat + size.toNat ≤ e.lo ∧ (e.start - t).toNat = e.lo - t.toNat) ∨
        (e.lo < t.toNat ∧ (e.start - t).toNat + t.toNat = 2 ^ w + e.lo ∧
          (e.hi ≤ t.toNat ∨ 2 ^ w ≤ t.toNat + size.toNat)))) := by
  simp only [Best.turn]
  split_ifs with hover
  · exact Or.inl rfl
  · refine (offer_cases best size t e.start).imp_right ?_
    rintro ⟨h, hlt, hcase⟩
    refine ⟨h, hlt, hcase.imp_right ?_⟩
    rintro ⟨hlo, heq⟩
    refine ⟨hlo, heq, ?_⟩
    by_contra hcon
    rw [not_or, Nat.not_le, Nat.not_le] at hcon
    apply hover
    rw [BitVec.lt_def, gt_iff_lt, BitVec.lt_def, BitVec.toNat_add_of_lt hcon.2]
    exact ⟨by omega, hcon.1⟩

theorem turn_of_gap {e : MapEnt w} (best : Best w) (hgap : t.toNat + size.toNat ≤ e.lo) :
    best.turn size t e = best.offer size t e.start := by
  have hover : ¬ (e.start < t + size ∧ e.end_ > t) := by
    rintro ⟨hlt, -⟩
    have hstart := e.start.isLt
    simp only [MapEnt.lo] at hgap
    rw [BitVec.lt_def, BitVec.toNat_add_of_lt (by omega)] at hlt
    omega
  rw [Best.turn, if_pos hover]

end Offer

section Gaps
variable {size l u : Nat} {align : BitVec 32} {es : List (MapEnt w)}

/-- The least aligned address from `l` on. -/
def firstAligned (align : BitVec 32) (l : Nat) : Nat :=
  if align = 0 then l else (l + (align.toNat - 1)) / align.toNat * align.toNat

/-- What is free between `l` and `u`, from the first gap to the last one. -/
def gapsFrom (u : Nat) : Nat → List (MapEnt w) → List (Nat × Nat)
  | l, [] => [(l, u)]
  | l, e :: es => (l, e.lo) :: gapsFrom u e.hi es

/-- A gap can hold the request. -/
def GapHolds (size : Nat) (align : BitVec 32) (g : Nat × Nat) : Prop :=
  firstAligned align g.1 + size ≤ g.2

/-- A gap measured from its first aligned address. -/
def gapSpan (align : BitVec 32) (g : Nat × Nat) : Nat := g.2 - firstAligned align g.1

/-- No gap that can hold the request is shorter. -/
def NoneShorter (size : Nat) (align : BitVec 32) (gaps : List (Nat × Nat)) (span : Nat) : Prop :=
  ∀ g ∈ gaps, GapHolds size align g → span ≤ gapSpan align g

theorem noneShorter_cons {g : Nat × Nat} {gaps : List (Nat × Nat)} {span : Nat}
    (hg : GapHolds size align g → span ≤ gapSpan align g)
    (hgaps : NoneShorter size align gaps span) : NoneShorter size align (g :: gaps) span := by
  intro g' hg'
  cases List.mem_cons.mp hg' with
  | inl heq => exact heq ▸ hg
  | inr hmem => exact hgaps g' hmem

theorem toNat_alignAddr_of_rounds {a : BitVec w} (halign : AlignOk align) (hw : 32 ≤ w)
    (hr : Rounds align a) : (alignAddr a align).toNat = firstAligned align a.toNat := by
  rw [firstAligned]
  rcases halign with rfl | ⟨k, hk⟩
  · simp
  · have hne : align ≠ 0 := by
      rintro rfl
      have := Nat.two_pow_pos k
      simp at hk
      omega
    rw [if_neg hne, alignAddr_eq_of_le hw hk hr, hk]

theorem le_firstAligned (halign : AlignOk align) (l : Nat) : l ≤ firstAligned align l := by
  rw [firstAligned]
  rcases halign with rfl | ⟨k, hk⟩
  · simp
  · have hpos := Nat.two_pow_pos k
    split
    · exact le_rfl
    · rw [hk]
      have := Nat.div_add_mod (l + (2 ^ k - 1)) (2 ^ k)
      have := Nat.mod_lt (l + (2 ^ k - 1)) hpos
      rw [Nat.mul_comm]
      omega

theorem alignedTo_firstAligned (align : BitVec 32) (l : Nat) :
    AlignedTo align (firstAligned align l) := by
  rw [firstAligned]
  split
  · next h => exact Or.inl h
  · exact Or.inr (Nat.dvd_mul_left _ _)

theorem firstAligned_le (halign : AlignOk align) {x : Nat} (hl : l ≤ x) (hx : AlignedTo align x) :
    firstAligned align l ≤ x := by
  rw [firstAligned]
  split
  · exact hl
  · next hne =>
    have hdvd := hx.resolve_left hne
    obtain ⟨k, hk⟩ := halign.resolve_left hne
    rw [hk] at hdvd ⊢
    exact div_mul_le_of_dvd (Nat.two_pow_pos k) hl hdvd

/-- A place in a gap is apart from all entries. -/
theorem fitsIn_of_mem_gaps (hpack : Packed MapEnt.lo MapEnt.hi u l es) {g : Nat × Nat}
    (hg : g ∈ gapsFrom u l es) {a : Nat} (hl : g.1 ≤ a) (hu : a + size ≤ g.2) :
    FitsIn size l u es a := by
  induction es generalizing l with
  | nil =>
      cases List.mem_singleton.mp hg
      exact ⟨hl, hu, by simp⟩
  | cons e es ih =>
      cases List.mem_cons.mp hg with
      | inl heq =>
          subst heq
          exact fitsIn_of_gap hpack hl hu
      | inr hmem => exact (ih hpack.2.2 hmem).skip (hpack.1.trans hpack.2.1.le)

/-- There is an aligned place exactly when a gap can hold the request. -/
theorem exists_fitsIn_iff (halign : AlignOk align) (hpack : Packed MapEnt.lo MapEnt.hi u l es) :
    (∃ x, AlignedTo align x ∧ FitsIn size l u es x) ↔
      ∃ g ∈ gapsFrom u l es, GapHolds size align g := by
  constructor
  · rintro ⟨x, hx, hfit⟩
    induction es generalizing l with
    | nil =>
        refine ⟨(l, u), List.mem_singleton_self _, ?_⟩
        exact (Nat.add_le_add_right (firstAligned_le halign hfit.1 hx) _).trans hfit.2.1
    | cons e es ih =>
        cases hfit.2.2 e List.mem_cons_self with
        | inl hbefore =>
            refine ⟨(l, e.lo), List.mem_cons_self, ?_⟩
            exact (Nat.add_le_add_right (firstAligned_le halign hfit.1 hx) _).trans hbefore
        | inr hafter =>
            have hrest : FitsIn size e.hi u es x :=
              ⟨hafter, hfit.2.1, fun f hf => hfit.2.2 f (List.mem_cons_of_mem _ hf)⟩
            obtain ⟨g, hg, hholds⟩ := ih hpack.2.2 hrest
            exact ⟨g, List.mem_cons_of_mem _ hg, hholds⟩
  · rintro ⟨g, hg, hholds⟩
    exact ⟨firstAligned align g.1, alignedTo_firstAligned align g.1,
      fitsIn_of_mem_gaps hpack hg (le_firstAligned halign g.1) hholds⟩

end Gaps

section Scan
variable {size : BitVec w} {align : BitVec 32} {u a : BitVec w} {es : List (MapEnt w)}
  {best : Best w}

/-- The search has found the first aligned address of a shortest gap. -/
def Settles (size : Nat) (align : BitVec 32) (gaps : List (Nat × Nat)) (best : Best w) : Prop :=
  ∃ g ∈ gaps, GapHolds size align g ∧ best.start.toNat = firstAligned align g.1 ∧
    best.sz.toNat = gapSpan align g ∧ NoneShorter size align gaps (gapSpan align g)

theorem Settles.cons {gaps : List (Nat × Nat)} (h : Settles size.toNat align gaps best)
    {g : Nat × Nat} (hg : GapHolds size.toNat align g → best.sz.toNat ≤ gapSpan align g) :
    Settles size.toNat align (g :: gaps) best := by
  obtain ⟨g', hg', hholds, hstart, hsz, hnone⟩ := h
  exact ⟨g', List.mem_cons_of_mem _ hg', hholds, hstart, hsz, noneShorter_cons (hsz ▸ hg) hnone⟩

theorem Settles.fitsIn (halign : AlignOk align) {l v : Nat}
    (hpack : Packed MapEnt.lo MapEnt.hi v l es)
    (h : Settles size.toNat align (gapsFrom v l es) best) :
    FitsIn size.toNat l v es best.start.toNat := by
  obtain ⟨g, hg, hholds, hstart, -⟩ := h
  rw [hstart]
  exact fitsIn_of_mem_gaps hpack hg (le_firstAligned halign g.1) hholds

/-- The search goes on from `best` over some gaps: it ends at one that can hold the request
and is shorter, or there is none. -/
def Improves (size : Nat) (align : BitVec 32) (gaps : List (Nat × Nat)) (best found : Best w) :
    Prop :=
  (Settles size align gaps found ∧ found.sz.toNat < best.sz.toNat) ∨
    (found = best ∧ NoneShorter size align gaps best.sz.toNat)

theorem Improves.le {gaps : List (Nat × Nat)} {found : Best w}
    (h : Improves size.toNat align gaps best found) : found.sz.toNat ≤ best.sz.toNat := by
  rcases h with ⟨-, hless⟩ | ⟨rfl, -⟩
  · exact hless.le
  · exact le_rfl

/-- A gap that was taken stays until a shorter one replaces it. -/
theorem Settles.improve {g : Nat × Nat} {gaps : List (Nat × Nat)} {found : Best w}
    (hbest : Settles size.toNat align [g] best) (h : Improves size.toNat align gaps best found) :
    Settles size.toNat align (g :: gaps) found := by
  obtain ⟨g', hg', hholds, hstart, hsz, -⟩ := hbest
  cases List.mem_singleton.mp hg'
  rcases h with ⟨hset, hless⟩ | ⟨rfl, hnone⟩
  · exact hset.cons fun _ => hsz ▸ hless.le
  · refine ⟨g, List.mem_cons_self, hholds, hstart, hsz, ?_⟩
    exact noneShorter_cons (fun _ => le_rfl) (hsz ▸ hnone)

theorem Improves.cons {g : Nat × Nat} {gaps : List (Nat × Nat)} {next found : Best w}
    (hg : Improves size.toNat align [g] best next)
    (h : Improves size.toNat align gaps next found) :
    Improves size.toNat align (g :: gaps) best found := by
  have hle := h.le
  rcases hg with ⟨hset, hless⟩ | ⟨rfl, hnone⟩
  · exact Or.inl ⟨hset.improve h, hle.trans_lt hless⟩
  · have hg := hnone g (List.mem_singleton_self g)
    rcases h with ⟨hset, hless⟩ | ⟨rfl, hnone⟩
    · exact Or.inl ⟨hset.cons fun hholds => hle.trans (hg hholds), hless⟩
    · exact Or.inr ⟨rfl, noneShorter_cons hg hnone⟩

section Turn
variable (hround : (alignAddr a align).toNat = firstAligned align a.toNat) {n : BitVec w}
include hround

theorem gapHolds_iff :
    GapHolds size.toNat align (a.toNat, n.toNat) ↔
      (alignAddr a align).toNat + size.toNat ≤ n.toNat := by
  rw [GapHolds, hround]

theorem settles_offer (hholds : GapHolds size.toNat align (a.toNat, n.toNat))
    (hless : gapSpan align (a.toNat, n.toNat) < best.sz.toNat) :
    Settles size.toNat align [(a.toNat, n.toNat)] (best.offer size (alignAddr a align) n) := by
  rw [gapSpan, ← hround] at hless
  rcases offer_of_gap best ((gapHolds_iff hround).mp hholds) with ⟨h, hsub, -⟩ | ⟨-, hle⟩
  · rw [h]
    refine ⟨_, List.mem_singleton_self _, hholds, hround, ?_,
      noneShorter_cons (fun _ => le_rfl) (List.forall_mem_nil _)⟩
    rw [gapSpan, ← hround, hsub]
  · omega

/-- A wrapped gap is longer than the address it ends at. -/
theorem improves_offer (hbest : best.sz.toNat ≤ n.toNat) :
    Improves size.toNat align [(a.toNat, n.toNat)] best (best.offer size (alignAddr a align) n) := by
  have hlt := (alignAddr a align).isLt
  rcases offer_cases best size (alignAddr a align) n with h | ⟨h, hless, hcase⟩
  · rw [h]
    refine Or.inr ⟨rfl, noneShorter_cons (fun hholds => ?_) (List.forall_mem_nil _)⟩
    rcases offer_of_gap best ((gapHolds_iff hround).mp hholds) with ⟨h', hsub, hless⟩ | ⟨-, hle⟩
    · rw [h.symm.trans h', hsub] at hless
      exact absurd hless (lt_irrefl _)
    · rwa [gapSpan, ← hround]
  · rcases hcase with ⟨hfit, heq⟩ | ⟨-, heq⟩
    · refine Or.inl ⟨settles_offer hround ((gapHolds_iff hround).mpr hfit) ?_, ?_⟩
      · rwa [gapSpan, ← hround, ← heq]
      · rwa [h]
    · omega

theorem improves_turn {e : MapEnt w} (hbest : best.sz.toNat ≤ e.lo) :
    Improves size.toNat align [(a.toNat, e.lo)] best (best.turn size (alignAddr a align) e) := by
  have hlt := (alignAddr a align).isLt
  by_cases hgap : (alignAddr a align).toNat + size.toNat ≤ e.lo
  · rw [turn_of_gap best hgap]
    exact improves_offer hround hbest
  · rcases turn_cases best size (alignAddr a align) e with h | ⟨-, hless, hcase⟩
    · rw [h]
      refine Or.inr ⟨rfl, noneShorter_cons (fun hholds => ?_) (List.forall_mem_nil _)⟩
      exact absurd ((gapHolds_iff hround).mp hholds) hgap
    · rcases hcase with ⟨hfit, -⟩ | ⟨-, heq, -⟩
      · exact absurd hfit hgap
      · omega

end Turn

/-- A gap already found that is no longer than the cursor is replaced by shorter real
gaps only. -/
theorem scan_settled (halign : AlignOk align) (hw : 32 ≤ w)
    (hpack : Packed MapEnt.lo MapEnt.hi u.toNat a.toNat es)
    (hr : Rounds align a ∧ ∀ e ∈ es, Rounds align e.end_)
    (hbest : best.sz.toNat ≤ a.toNat) :
    Improves size.toNat align (gapsFrom u.toNat a.toNat es) best
      (bestFitScan size align u a es best) := by
  induction es generalizing a best with
  | nil => exact improves_offer (toNat_alignAddr_of_rounds halign hw hr.1) (hbest.trans hpack)
  | cons e es ih =>
      obtain ⟨hlo, hlen, htail⟩ := hpack
      have hturn : Improves size.toNat align [(a.toNat, e.lo)] best _ :=
        improves_turn (toNat_alignAddr_of_rounds halign hw hr.1) (hbest.trans hlo)
      refine hturn.cons (ih htail (List.forall_mem_cons.mp hr.2) ?_)
      exact hturn.le.trans (hbest.trans (hlo.trans hlen.le))

/-- Nothing found yet, or a wrapped gap: any real gap from the cursor on is shorter. -/
def Pending (align : BitVec 32) (a : BitVec w) (best : Best w) : Prop :=
  best.sz.toNat = 2 ^ w - 1 ∨ 2 ^ w - (alignAddr a align).toNat ≤ best.sz.toNat

theorem Pending.longer (hround : (alignAddr a align).toNat = firstAligned align a.toNat)
    (hbest : Pending align a best) {n : BitVec w}
    (hn : 0 < (alignAddr a align).toNat ∨ n.toNat < 2 ^ w - 1)
    (hholds : GapHolds size.toNat align (a.toNat, n.toNat)) :
    gapSpan align (a.toNat, n.toNat) < best.sz.toNat := by
  have hlt := n.isLt
  have hgap := (gapHolds_iff hround).mp hholds
  rw [gapSpan, ← hround]
  rcases hbest with h | h <;> omega

/-- If some gap from the cursor on can hold the request, the search ends at a shortest one. -/
theorem scan_of_place (halign : AlignOk align) (hw : 32 ≤ w) (hsize : 0 < size.toNat)
    (hpack : Packed MapEnt.lo MapEnt.hi u.toNat a.toNat es)
    (hr : Rounds align a ∧ ∀ e ∈ es, Rounds align e.end_)
    (hne : es ≠ [] ∨ 0 < a.toNat) (hbest : Pending align a best)
    (hplace : ∃ g ∈ gapsFrom u.toNat a.toNat es, GapHolds size.toNat align g) :
    Settles size.toNat align (gapsFrom u.toNat a.toNat es)
      (bestFitScan size align u a es best) := by
  have hround := toNat_alignAddr_of_rounds halign hw hr.1
  induction es generalizing a best with
  | nil =>
      have ha : 0 < a.toNat := hne.resolve_left (by simp)
      obtain ⟨g, hg, hholds⟩ := hplace
      cases List.mem_singleton.mp hg
      have hpos := ha.trans_le (BitVec.le_def.mp hr.1)
      exact settles_offer hround hholds (hbest.longer hround (Or.inl hpos) hholds)
  | cons e es ih =>
      obtain ⟨hlo, hlen, htail⟩ := hpack
      have hrs := List.forall_mem_cons.mp hr.2
      have hend : e.hi < 2 ^ w := e.end_.isLt
      simp only [bestFitScan, gapsFrom] at hplace ⊢
      by_cases hholds : GapHolds size.toNat align (a.toNat, e.lo)
      · -- the gap here is real: it is taken and stays until a shorter one replaces it
        have hless : gapSpan align (a.toNat, e.lo) < best.sz.toNat :=
          hbest.longer hround (Or.inr (show e.lo < _ by omega)) hholds
        have hset : Settles size.toNat align [(a.toNat, e.lo)]
            (best.turn size (alignAddr a align) e) := by
          rw [turn_of_gap best ((gapHolds_iff hround).mp hholds)]
          exact settles_offer hround hholds hless
        refine hset.improve (scan_settled halign hw htail hrs ?_)
        obtain ⟨g, hg, -, -, hsz, -⟩ := hset
        cases List.mem_singleton.mp hg
        rw [hsz]
        exact (Nat.sub_le _ _).trans hlen.le
      · -- the place is further on, and a gap taken here can only be a wrapped one
        have hplace' : ∃ g ∈ gapsFrom u.toNat e.hi es, GapHolds size.toNat align g := by
          obtain ⟨g, hg, hholds'⟩ := hplace
          cases List.mem_cons.mp hg with
          | inl heq => exact absurd (heq ▸ hholds') hholds
          | inr hmem => exact ⟨g, hmem, hholds'⟩
        have hmono : (alignAddr a align).toNat ≤ (alignAddr e.end_ align).toNat :=
          BitVec.le_def.mp (alignAddr_mono hw halign hr.1 hrs.1
            (BitVec.le_def.mpr (hlo.trans hlen.le)))
        have hpend : Pending align e.end_ (best.turn size (alignAddr a align) e) := by
          rcases turn_cases best size (alignAddr a align) e with h | ⟨h, -, hcase⟩
          · rw [h]
            exact hbest.imp_right (fun h => by omega)
          · rw [h]
            rcases hcase with ⟨hfit, -⟩ | ⟨-, heq, -⟩
            · exact absurd ((gapHolds_iff hround).mpr hfit) hholds
            · exact Or.inr (by simp only; omega)
        have hset := ih htail hrs (Or.inr (show 0 < e.hi by omega)) hpend hplace'
          (toNat_alignAddr_of_rounds halign hw hrs.1)
        exact hset.cons fun hholds' => absurd hholds' hholds

/-- If no rounding jumps too far, the search ends at a real gap or finds nothing. -/
theorem scan_of_noSkip (hpack : Packed MapEnt.lo MapEnt.hi u.toNat a.toNat es)
    (hr : Rounds align a ∧ ∀ e ∈ es, Rounds align e.end_)
    (hskip : NoSkip size align u a es) :
    bestFitScan size align u a es best = best ∨
      FitsIn size.toNat a.toNat u.toNat es (bestFitScan size align u a es best).start.toNat := by
  induction es generalizing a best with
  | nil =>
      refine (offer_cases best size (alignAddr a align) u).imp_right ?_
      rintro ⟨h, hlt, ⟨hfit, -⟩ | ⟨hlt', -⟩⟩
      · simp only [bestFitScan, h]
        exact ⟨BitVec.le_def.mp hr.1, hfit, by simp⟩
      · have hle := BitVec.le_def.mp hskip
        omega
  | cons e es ih =>
      obtain ⟨hlo, hlen, htail⟩ := hpack
      have hrs := List.forall_mem_cons.mp hr.2
      have hah : a.toNat ≤ e.hi := hlo.trans hlen.le
      simp only [bestFitScan]
      rcases turn_cases best size (alignAddr a align) e with h | ⟨h, hlt, hcase⟩
      · rw [h]
        exact (ih htail hrs hskip.2).imp_right (·.skip hah)
      · rw [h]
        rcases hcase with ⟨hfit, heq⟩ | ⟨hlt', heq, hfar⟩
        · refine Or.inr ?_
          rcases @ih _ ⟨alignAddr a align, e.start - alignAddr a align⟩ htail hrs hskip.2
            with hsame | hfits
          · rw [hsame]
            exact fitsIn_of_gap ⟨hlo, hlen, htail⟩ (BitVec.le_def.mp hr.1) hfit
          · exact hfits.skip hah
        · -- the rounding stopped inside the entry, where the overlap test refuses it
          rcases hskip.1 with hle | ⟨hin, hwrap⟩
          · rw [BitVec.le_def] at hle
            simp only [MapEnt.lo] at hlt'
            omega
          · rw [BitVec.lt_def] at hin
            simp only [MapEnt.hi] at hfar
            omega

end Scan

/-- The contract of `syspage_bestFit` on requests it can answer. -/
theorem bestFit_fits {map : SysMap w} {size : BitVec w} {align : BitVec 32} {a : BitVec w}
    (hw : 32 ≤ w) (hpack : map.Packed) (hsize : 0 < size.toNat) (halign : AlignOk align)
    (hsafe : map.BestFitSafe size align) (h : bestFit map size align = some a) :
    map.Fits size a.toNat := by
  obtain ⟨hr, hplace⟩ := hsafe
  simp only [bestFit] at h
  split at h
  · next hnone =>
    rw [List.getLast?_eq_none_iff] at hnone
    cases h
    obtain ⟨x, hx, hfit⟩ := hplace.resolve_right (fun h => h.1 hnone)
    refine ⟨BitVec.le_def.mp hr.1, ?_, by simp [hnone]⟩
    have hle := alignAddr_le_of_aligned hw halign hr.1 hfit.1 hx
    have := hfit.2.1
    omega
  · next last hlast =>
    have hne : map.entries ≠ [] := by
      rintro hnil
      simp [hnil] at hlast
    have hscan := bestFitScan_eq size align map.end_ map.start map.entries ⟨-1, -1⟩
    simp only [hlast, Option.map_some, Option.getD_some] at hscan
    simp only [← hscan] at h
    split at h
    · cases h
    · next hfound =>
      cases h
      rcases hplace with ⟨x, hx, hfit⟩ | ⟨-, hskip⟩
      · refine Settles.fitsIn halign hpack (scan_of_place halign hw hsize hpack hr (Or.inl hne)
          (Or.inl ?_) ((exists_fitsIn_iff halign hpack).mp ⟨x, hx, hfit⟩))
        simp only [BitVec.ofNat_eq_ofNat, BitVec.neg_one_eq_allOnes, BitVec.toNat_allOnes]
      · cases scan_of_noSkip hpack hr hskip with
        | inl hsame =>
          rw [hsame] at hfound
          simp at hfound
        | inr hfits =>
          exact hfits

end Plo.Syspage
