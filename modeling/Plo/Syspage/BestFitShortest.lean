import Plo.Syspage.BestFit

/-!
When the best fit does what its name says: it finds a place exactly when there is
one, and then one in a shortest gap. With exact roundings the search can only go
wrong where no place exists: an empty map is never measured, and a rounding that
jumps over the end of a gap by more than a byte makes it look enormous.
-/
namespace Plo.Syspage
variable {w : Nat}

/-- The free gaps of a map. -/
def SysMap.gaps (map : SysMap w) : List (Nat × Nat) :=
  gapsFrom map.end_.toNat map.start.toNat map.entries

/-- The search succeeds exactly when an aligned place is free, and the address it gives
is such a place, in a gap that is no longer than any other that can hold the request. -/
structure SysMap.BestFitCorrect (map : SysMap w) (size : BitVec w) (align : BitVec 32) : Prop where
  success : (bestFit map size align).isSome = true ↔ ∃ a, AlignedTo align a ∧ map.Fits size a
  place : ∀ a, bestFit map size align = some a → AlignedTo align a.toNat ∧ map.Fits size a.toNat ∧
    ∃ g ∈ map.gaps, g.1 ≤ a.toNat ∧ a.toNat + size.toNat ≤ g.2 ∧
      NoneShorter size.toNat align map.gaps (gapSpan align g)

/-- The rounding `t` is past the end `n` of its gap, and the difference taken as an unsigned
word is large enough for the request but not the largest word. -/
def Jumps (size t n : BitVec w) : Prop :=
  n.toNat + 1 < t.toNat ∧ t.toNat + size.toNat ≤ 2 ^ w + n.toNat

/-- No gap is jumped over in a way that the search takes for a gap. A rounding into the next
entry is found to overlap it, unless the end of the range wraps around. -/
def NoJump (size : BitVec w) (align : BitVec 32) (u : BitVec w) :
    BitVec w → List (MapEnt w) → Prop
  | a, [] => ¬Jumps size (alignAddr a align) u
  | a, e :: es =>
    ¬(Jumps size (alignAddr a align) e.start ∧
      (e.hi ≤ (alignAddr a align).toNat ∨ 2 ^ w ≤ (alignAddr a align).toNat + size.toNat)) ∧
    NoJump size align u e.end_ es

instance (align : BitVec 32) (a : BitVec w) : Decidable (Rounds align a) :=
  inferInstanceAs (Decidable (a ≤ alignAddr a align))

def SysMap.RoundsExactly (map : SysMap w) (align : BitVec 32) : Prop :=
  Rounds align map.start ∧ ∀ e ∈ map.entries, Rounds align e.end_

/-- There is a place, or the map has entries and no jump looks like one. -/
def SysMap.BestFitAnswers (map : SysMap w) (size : BitVec w) (align : BitVec 32) : Prop :=
  (∃ a, AlignedTo align a ∧ map.Fits size a) ∨
    (map.entries ≠ [] ∧ NoJump size align map.end_ map.start map.entries)

section Scan
variable {size : BitVec w} {align : BitVec 32} {u a : BitVec w} {es : List (MapEnt w)}

/-- Nothing found. -/
def Best.nothing (w : Nat) : Best w := ⟨-1, -1⟩

theorem toNat_nothing_sz : (Best.nothing w).sz.toNat = 2 ^ w - 1 := by
  simp only [Best.nothing, BitVec.ofNat_eq_ofNat, BitVec.neg_one_eq_allOnes, BitVec.toNat_allOnes]

/-- A rounding past an address is not the last one. -/
theorem not_last_of_jump (halign : AlignOk align) (hw : 32 ≤ w) (hr : Rounds align a) {n : Nat}
    (hn : a.toNat ≤ n) (hlt : n < (alignAddr a align).toNat) :
    (alignAddr a align).toNat ≠ 2 ^ w - 1 := by
  intro hlast
  have hfirst := toNat_alignAddr_of_rounds halign hw hr
  have haligned : AlignedTo align (alignAddr a align).toNat := alignedTo_alignAddr hw halign
  rcases halign with rfl | ⟨k, hk⟩
  · simp only [firstAligned, if_true] at hfirst
    omega
  · have hne : align ≠ 0 := by
      rintro rfl
      have := Nat.two_pow_pos k
      simp at hk
      omega
    have hdvd := haligned.resolve_left hne
    rw [hk, hlast] at hdvd
    have hk32 : k < 32 := by
      have := align.isLt
      rw [hk] at this
      exact (Nat.pow_lt_pow_iff_right (by decide)).mp this
    have hdvd' : 2 ^ k ∣ 2 ^ w := Nat.pow_dvd_pow 2 (by omega)
    have hone : 2 ^ k ∣ 1 := by
      have hsub := Nat.dvd_sub hdvd' hdvd
      rwa [Nat.sub_sub_self (Nat.two_pow_pos w)] at hsub
    have hk1 : align.toNat = 1 := by rw [hk, Nat.dvd_one.mp hone]
    simp only [firstAligned, if_neg hne, hk1, Nat.sub_self, Nat.add_zero, Nat.div_one,
      Nat.mul_one] at hfirst
    omega

/-- A gap that cannot hold the request is taken exactly when it is jumped over. -/
theorem offer_nothing {t n : BitVec w} (hgap : ¬t.toNat + size.toNat ≤ n.toNat) :
    ((Best.nothing w).offer size t n = Best.nothing w ∧ ¬Jumps size t n) ∨
      ((Best.nothing w).offer size t n = ⟨t, n - t⟩ ∧ Jumps size t n) := by
  have hsz := toNat_nothing_sz (w := w)
  unfold Best.offer Jumps
  simp only
  split_ifs with h
  · have hless := BitVec.lt_def.mp h.1
    have hle := BitVec.le_def.mp h.2
    rcases toNat_sub_cases n t with ⟨hle', heq⟩ | ⟨hlt, heq⟩
    · omega
    · exact Or.inr ⟨rfl, by omega, by omega⟩
  · refine Or.inl ⟨rfl, ?_⟩
    rintro ⟨hlt, hle⟩
    apply h
    rcases toNat_sub_cases n t with ⟨hle', -⟩ | ⟨-, heq⟩
    · omega
    · exact ⟨BitVec.lt_def.mpr (by omega), BitVec.le_def.mpr (by omega)⟩

theorem turn_nothing {t : BitVec w} {e : MapEnt w} (hgap : ¬t.toNat + size.toNat ≤ e.lo) :
    ((Best.nothing w).turn size t e = Best.nothing w ∧
        ¬(Jumps size t e.start ∧ (e.hi ≤ t.toNat ∨ 2 ^ w ≤ t.toNat + size.toNat))) ∨
      ((Best.nothing w).turn size t e = ⟨t, e.start - t⟩ ∧
        Jumps size t e.start ∧ (e.hi ≤ t.toNat ∨ 2 ^ w ≤ t.toNat + size.toNat)) := by
  have ht := t.isLt
  have hs := size.isLt
  have hadd := toNat_add_cases t size
  simp only [Best.turn]
  split_ifs with hover
  · refine Or.inl ⟨rfl, ?_⟩
    have hlo := BitVec.lt_def.mp hover.1
    have hhi : t.toNat < e.hi := BitVec.lt_def.mp hover.2
    rintro ⟨⟨-, hle⟩, hfar⟩
    rcases hadd with ⟨hlt, -⟩ | ⟨-, heq⟩ <;> omega
  · rcases offer_nothing (n := e.start) hgap with ⟨h, hnot⟩ | ⟨h, hjump⟩
    · exact Or.inl ⟨h, fun hj => hnot hj.1⟩
    · refine Or.inr ⟨h, hjump, ?_⟩
      by_contra hnear
      rw [not_or, Nat.not_le, Nat.not_le] at hnear
      apply hover
      have hstart := hjump.1
      rw [BitVec.lt_def, gt_iff_lt, BitVec.lt_def, BitVec.toNat_add_of_lt hnear.2]
      exact ⟨by omega, hnear.1⟩

/-- Something the search answers with. -/
def Best.Found (best : Best w) : Prop :=
  best.sz.toNat < 2 ^ w - 1 ∧ best.start.toNat ≠ 2 ^ w - 1

/-- Where no gap can hold the request, what was found is replaced by jumps only. -/
theorem scan_found (halign : AlignOk align) (hw : 32 ≤ w)
    (hpack : Packed MapEnt.lo MapEnt.hi u.toNat a.toNat es)
    (hr : Rounds align a ∧ ∀ e ∈ es, Rounds align e.end_)
    (hnone : ∀ g ∈ gapsFrom u.toNat a.toNat es, ¬GapHolds size.toNat align g)
    {best : Best w} (hbest : best.Found) : (bestFitScan size align u a es best).Found := by
  have hround := toNat_alignAddr_of_rounds halign hw hr.1
  induction es generalizing a best with
  | nil =>
      have hu : a.toNat ≤ u.toNat := hpack
      have hgap := hnone _ (List.mem_singleton_self _)
      rw [GapHolds, ← hround] at hgap
      simp only [bestFitScan]
      rcases offer_cases best size (alignAddr a align) u with h | ⟨h, hless, ⟨hfit, -⟩ | ⟨hlt, -⟩⟩
      · rwa [h]
      · exact absurd hfit hgap
      · rw [h]
        exact ⟨hless.trans hbest.1, not_last_of_jump halign hw hr.1 hu hlt⟩
  | cons e es ih =>
      obtain ⟨hlo, -, htail⟩ := hpack
      have hrs := List.forall_mem_cons.mp hr.2
      obtain ⟨hgap, hnones⟩ := List.forall_mem_cons.mp hnone
      rw [GapHolds, ← hround] at hgap
      simp only [bestFitScan]
      refine ih htail hrs hnones ?_ (toNat_alignAddr_of_rounds halign hw hrs.1)
      rcases turn_cases best size (alignAddr a align) e with
        h | ⟨h, hless, ⟨hfit, -⟩ | ⟨hlt, -⟩⟩
      · rwa [h]
      · exact absurd hfit hgap
      · rw [h]
        exact ⟨hless.trans hbest.1, not_last_of_jump halign hw hr.1 hlo hlt⟩

theorem Jumps.found {t n : BitVec w} (h : Jumps size t n) (hlast : t.toNat ≠ 2 ^ w - 1) :
    Best.Found ⟨t, n - t⟩ := by
  refine ⟨?_, hlast⟩
  have hlt := h.1
  rcases toNat_sub_cases n t with ⟨hle, -⟩ | ⟨-, heq⟩
  · omega
  · simp only
    omega

/-- Where no gap can hold the request, the search finds nothing exactly when no jump looks
like a gap. -/
theorem scan_nothing (halign : AlignOk align) (hw : 32 ≤ w)
    (hpack : Packed MapEnt.lo MapEnt.hi u.toNat a.toNat es)
    (hr : Rounds align a ∧ ∀ e ∈ es, Rounds align e.end_)
    (hnone : ∀ g ∈ gapsFrom u.toNat a.toNat es, ¬GapHolds size.toNat align g) :
    (bestFitScan size align u a es (Best.nothing w) = Best.nothing w ∧ NoJump size align u a es) ∨
      ((bestFitScan size align u a es (Best.nothing w)).Found ∧ ¬NoJump size align u a es) := by
  have hround := toNat_alignAddr_of_rounds halign hw hr.1
  induction es generalizing a with
  | nil =>
      have hu : a.toNat ≤ u.toNat := hpack
      have hgap := hnone _ (List.mem_singleton_self _)
      rw [GapHolds, ← hround] at hgap
      simp only [bestFitScan, NoJump, not_not]
      rcases offer_nothing hgap with ⟨h, hnot⟩ | ⟨h, hjump⟩
      · exact Or.inl ⟨h, hnot⟩
      · rw [h]
        have hlt := hjump.1
        exact Or.inr ⟨hjump.found (not_last_of_jump halign hw hr.1 hu (by omega)), hjump⟩
  | cons e es ih =>
      obtain ⟨hlo, -, htail⟩ := hpack
      have hrs := List.forall_mem_cons.mp hr.2
      obtain ⟨hgap, hnones⟩ := List.forall_mem_cons.mp hnone
      rw [GapHolds, ← hround] at hgap
      simp only [bestFitScan, NoJump]
      rcases turn_nothing hgap with ⟨h, hnot⟩ | ⟨h, hjump, hfar⟩
      · rw [h]
        rcases ih htail hrs hnones (toNat_alignAddr_of_rounds halign hw hrs.1) with
          ⟨hsame, hno⟩ | ⟨hfnd, hjump⟩
        · exact Or.inl ⟨hsame, hnot, hno⟩
        · exact Or.inr ⟨hfnd, fun hno => hjump hno.2⟩
      · rw [h]
        have hlt := hjump.1
        have hlast := not_last_of_jump halign hw hr.1 hlo (show e.lo < _ by
          simp only [MapEnt.lo]
          omega)
        exact Or.inr ⟨scan_found halign hw htail hrs hnones (hjump.found hlast),
          fun hno => hno.1 ⟨hjump, hfar⟩⟩

end Scan

section
variable {map : SysMap w} {size : BitVec w} {align : BitVec 32}

/-- The answer of the search, in a map with entries. -/
theorem bestFit_eq_scan (hne : map.entries ≠ []) :
    bestFit map size align =
      let best := bestFitScan size align map.end_ map.start map.entries (Best.nothing w)
      if best.sz = -1 ∨ best.start = -1 then none else some best.start := by
  obtain ⟨last, hlast⟩ : ∃ last, map.entries.getLast? = some last :=
    Option.isSome_iff_exists.mp (by simpa using hne)
  have hscan := bestFitScan_eq size align map.end_ map.start map.entries (Best.nothing w)
  simp only [hlast, Option.map_some, Option.getD_some] at hscan
  simp only [bestFit, hlast, hscan]
  rfl

theorem Best.Found.not_none {best : Best w} (h : best.Found) : ¬(best.sz = -1 ∨ best.start = -1) := by
  have hlast : (-1 : BitVec w).toNat = 2 ^ w - 1 := toNat_nothing_sz
  rintro (heq | heq)
  · exact absurd h.1 (by rw [heq, hlast]; omega)
  · exact h.2 (by rw [heq, hlast])

/-- A gap next to an entry is not the whole address space. -/
theorem gapSpan_lt {u l : Nat} {es : List (MapEnt w)} (hpack : Packed MapEnt.lo MapEnt.hi u l es)
    (hu : u < 2 ^ w) (hne : es ≠ [] ∨ 0 < l) (halign : AlignOk align) {g : Nat × Nat}
    (hg : g ∈ gapsFrom u l es) : g.2 < 2 ^ w ∧ gapSpan align g < 2 ^ w - 1 := by
  induction es generalizing l with
  | nil =>
      cases List.mem_singleton.mp hg
      have hl := hne.resolve_left (by simp)
      have hlu : l ≤ u := hpack
      have hfirst := le_firstAligned halign l
      simp only [gapSpan]
      omega
  | cons e es ih =>
      obtain ⟨hlo, hlen, htail⟩ := hpack
      cases List.mem_cons.mp hg with
      | inl heq =>
          subst heq
          have hhi := htail.le
          simp only [gapSpan]
          omega
      | inr hmem => exact ih htail (Or.inr (by omega)) hmem

/-- What a search that ended at a shortest gap answers. -/
theorem bestFit_of_settles (hpack : map.Packed) (hne : map.entries ≠ []) (hsize : 0 < size.toNat)
    (halign : AlignOk align)
    (h : Settles size.toNat align map.gaps
      (bestFitScan size align map.end_ map.start map.entries (Best.nothing w))) :
    ∃ a, bestFit map size align = some a ∧ AlignedTo align a.toNat ∧ map.Fits size a.toNat ∧
      ∃ g ∈ map.gaps, g.1 ≤ a.toNat ∧ a.toNat + size.toNat ≤ g.2 ∧
        NoneShorter size.toNat align map.gaps (gapSpan align g) := by
  have hfits := h.fitsIn halign hpack
  obtain ⟨g, hg, hholds, hstart, hsz, hnone⟩ := h
  obtain ⟨hend, hspan⟩ := gapSpan_lt hpack map.end_.isLt (Or.inl hne) halign hg
  have hle : firstAligned align g.1 + size.toNat ≤ g.2 := hholds
  rw [bestFit_eq_scan hne]
  generalize bestFitScan size align map.end_ map.start map.entries (Best.nothing w) = best
    at hfits hstart hsz ⊢
  have hfound : best.Found := ⟨by omega, by omega⟩
  refine ⟨best.start, if_neg hfound.not_none, ?_, hfits, g, hg, ?_, by omega, hnone⟩
  · rw [hstart]
    exact alignedTo_firstAligned align g.1
  · rw [hstart]
    exact le_firstAligned halign g.1

/-- An empty map is answered without being measured. -/
theorem bestFit_empty_iff (hw : 32 ≤ w) (halign : AlignOk align) (hr : map.RoundsExactly align)
    (hempty : map.entries = []) :
    map.BestFitCorrect size align ↔ ∃ a, AlignedTo align a ∧ map.Fits size a := by
  have hround := toNat_alignAddr_of_rounds halign hw hr.1
  have hsome : bestFit map size align = some (alignAddr map.start align) := by
    simp [bestFit, hempty]
  constructor
  · intro h
    exact h.success.mp (by rw [hsome, Option.isSome_some])
  · rintro ⟨x, hx, hfit⟩
    have hle := firstAligned_le halign hfit.1 hx
    have hend := hfit.2.1
    refine ⟨by rw [hsome]; simpa using ⟨x, hx, hfit⟩, fun a ha => ?_⟩
    rw [hsome] at ha
    cases ha
    rw [hround]
    have hgaps : map.gaps = [(map.start.toNat, map.end_.toNat)] := by
      simp [SysMap.gaps, hempty, gapsFrom]
    refine ⟨alignedTo_firstAligned _ _, ⟨le_firstAligned halign _, by omega, by simp [hempty]⟩,
      (map.start.toNat, map.end_.toNat), by simp [hgaps], le_firstAligned halign _, by omega, ?_⟩
    rw [hgaps]
    exact noneShorter_cons (fun _ => le_rfl) (List.forall_mem_nil _)

/-- The best fit is correct where every rounding is exact and there is a place, or no jump
looks like one; and where every rounding is exact it is correct only there. -/
theorem bestFit_correct_iff (hw : 32 ≤ w) (map : SysMap w) (size : BitVec w) (align : BitVec 32)
    (hpack : map.Packed) (hsize : 0 < size.toNat) (halign : AlignOk align) :
    (map.RoundsExactly align ∧ map.BestFitAnswers size align → map.BestFitCorrect size align) ∧
      (map.RoundsExactly align → map.BestFitCorrect size align →
        map.BestFitAnswers size align) := by
  suffices hiff : map.RoundsExactly align →
      (map.BestFitCorrect size align ↔ map.BestFitAnswers size align) from
    ⟨fun h => (hiff h.1).mpr h.2, fun hr => (hiff hr).mp⟩
  intro hr
  by_cases hempty : map.entries = []
  · rw [bestFit_empty_iff hw halign hr hempty]
    exact ⟨Or.inl, fun h => h.resolve_right fun hne => hne.1 hempty⟩
  · by_cases hplace : ∃ a, AlignedTo align a ∧ map.Fits size a
    · -- a place exists: the search ends at a shortest gap
      obtain ⟨a, hsome, hspec⟩ := bestFit_of_settles hpack hempty hsize halign
        (scan_of_place halign hw hsize hpack hr (Or.inl hempty) (Or.inl toNat_nothing_sz)
          ((exists_fitsIn_iff halign hpack).mp hplace))
      refine iff_of_true ⟨by simpa [hsome] using hplace, fun b hb => ?_⟩ (Or.inl hplace)
      rw [hsome] at hb
      cases hb
      exact hspec
    · have hnone : ∀ g ∈ gapsFrom map.end_.toNat map.start.toNat map.entries,
          ¬GapHolds size.toNat align g := fun g hg hholds =>
        hplace ((exists_fitsIn_iff halign hpack).mpr ⟨g, hg, hholds⟩)
      have heq := @bestFit_eq_scan _ map size align hempty
      rcases scan_nothing halign hw hpack hr hnone with ⟨hsame, hno⟩ | ⟨hfound, hjump⟩
      · have hfails : bestFit map size align = none := by
          rw [heq, hsame]
          exact if_pos (Or.inl rfl)
        refine iff_of_true ⟨by simpa [hfails] using hplace, fun b hb => ?_⟩
          (Or.inr ⟨hempty, hno⟩)
        rw [hfails] at hb
        cases hb
      · have hsome := heq.trans (if_neg hfound.not_none)
        refine iff_of_false (fun h => hplace (h.success.mp ?_)) ?_
        · rw [hsome, Option.isSome_some]
        · rintro (h | h)
          · exact hplace h
          · exact hjump h.2

end

/-- One page of four is taken. -/
def pageMap : SysMap 32 :=
  ⟨⟨[0x70], by decide⟩, 0x1000, 0x5000, ⟨true, true, false, false, false, false⟩, 0,
    [⟨0x3000, 0x4000, .allocated⟩]⟩

theorem bestFit_correct_iff_page :
    bestFit pageMap 0x800 0x1000 = some 0x4000 ∧ pageMap.BestFitCorrect 0x800 0x1000 := by
  refine ⟨by decide, (bestFit_correct_iff le_rfl pageMap 0x800 0x1000 ?_ (by decide)
    (Or.inr ⟨12, by decide⟩)).1 ⟨⟨by decide, by decide⟩, Or.inl ⟨0x4000, ?_, ?_⟩⟩⟩
  · exact ⟨by decide, by decide, show (0x4000 : BitVec 32).toNat ≤ (0x5000 : BitVec 32).toNat by decide⟩
  · exact Or.inr (by decide)
  · refine ⟨by decide, by decide, fun e he => Or.inr ?_⟩
    rw [List.mem_singleton.mp he]
    decide

/-- Two pages are asked for in an empty map of one. -/
theorem bestFit_answers_empty_map :
    ¬SysMap.BestFitCorrect
      ⟨⟨[0x6d], by decide⟩, 0x1000, 0x2000, ⟨true, true, false, false, false, false⟩, 0, []⟩
      (0x2000 : BitVec 32) 0x1000 := by
  intro h
  obtain ⟨a, -, hlo, hhi, -⟩ := h.success.mp (by decide)
  have hlo : 0x1000 ≤ a := hlo
  have hhi : a + 0x2000 ≤ 0x2000 := hhi
  omega

end Plo.Syspage
