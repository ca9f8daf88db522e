import Plo.Hal.Memory
import Plo.Syspage.Placement

/-!
The entries that a new map gets from the HAL. The loop asks for the first range from
the end of the last one on, so ranges that lie in one another come out cut: what one
entry has taken is taken away from the others. A turn uses up a range of the table or
reaches the end of the map.
-/
namespace Plo.Syspage
open Plo.Hal.Memory (Covered First memoryGetNextEntry memoryGetNextEntry_cases)
variable {w : Nat} {σ : Type}

/-- The HAL of the platform has these ranges. -/
def HalRanges (p : Platform w σ) (syspage : MapEnt w) (table : List (MapEnt w)) : Prop :=
  ∀ hal start end_, p.memoryGetNextEntry hal start end_ =
    memoryGetNextEntry syspage table start end_

/-- Entries in ascending order, apart, not empty and between the bounds. -/
structure Laid (start end_ : BitVec w) (entries : List (MapEnt w)) : Prop where
  ascending : entries.Pairwise fun e f => e.start < f.start ∧ e.end_ ≤ f.start
  within : ∀ e ∈ entries, start ≤ e.start ∧ e.start < e.end_ ∧ e.end_ ≤ end_

theorem laid_of_packed {start end_ : BitVec w} {entries : List (MapEnt w)}
    (h : Packed MapEnt.lo MapEnt.hi end_.toNat start.toNat entries) : Laid start end_ entries where
  ascending := by
    have hmem : ∀ e ∈ entries, e.start.toNat < e.end_.toNat := fun e he => (h.mem he).2.1
    refine h.pairwise.imp_of_mem fun {e f} he _ hle => ?_
    have hlt := hmem e he
    exact ⟨BitVec.lt_def.mpr (hlt.trans_le hle), BitVec.le_def.mpr hle⟩
  within := by
    intro e he
    obtain ⟨hl, hlt, hu⟩ := h.mem he
    exact ⟨BitVec.le_def.mpr hl, BitVec.lt_def.mpr hlt, BitVec.le_def.mpr hu⟩

/-- How many turns the loop can make from `start` on. -/
def turnsLeft (ranges : List (MapEnt w)) (end_ start : BitVec w) : Nat :=
  if start = end_ then 0 else (ranges.filter fun r => start < r.end_).length

theorem turnsLeft_le (ranges : List (MapEnt w)) (end_ start : BitVec w) :
    turnsLeft ranges end_ start ≤ ranges.length := by
  rw [turnsLeft]
  split
  · exact Nat.zero_le _
  · exact List.length_filter_le _ _

section
variable {start end_ : BitVec w} {syspage : MapEnt w} {table : List (MapEnt w)}

/-- An entry uses up the range it ends with. -/
theorem turnsLeft_lt_of_first {ranges : List (MapEnt w)} {entry : MapEnt w}
    (hlt : start.toNat < end_.toNat) (h : First start end_ ranges entry) :
    turnsLeft ranges end_ entry.end_ < turnsLeft ranges end_ start := by
  have hne : start ≠ end_ := by
    rintro rfl
    omega
  have hstart := h.start_le
  have hnon := h.nonempty
  obtain ⟨r, hr, -, hlast⟩ := h.covered entry.start.toNat le_rfl hnon
  have hcount : r ∈ ranges.filter fun r => start < r.end_ := by
    simp only [List.mem_filter, decide_eq_true_eq, BitVec.lt_def]
    exact ⟨hr, by omega⟩
  rw [turnsLeft, turnsLeft, if_neg hne]
  split
  · exact List.length_pos_of_mem hcount
  · rename_i hend
    obtain ⟨r', hr', heq⟩ := h.ends.resolve_left hend
    -- the range the entry ends with is counted before and not after
    have hsub : (ranges.filter fun r => entry.end_ < r.end_) =
        (ranges.filter fun r => start < r.end_).filter fun r => entry.end_ < r.end_ := by
      rw [List.filter_filter]
      refine List.filter_congr fun f _ => ?_
      simp only [Bool.and_eq_decide, decide_eq_true_eq, BitVec.lt_def, decide_eq_decide]
      omega
    rw [hsub]
    refine List.length_filter_lt_length_iff_exists.mpr ⟨r', ?_, ?_⟩
    · simp only [List.mem_filter, decide_eq_true_eq, BitVec.lt_def]
      exact ⟨hr', by rw [← heq]; omega⟩
    · simp [heq]

/-- A turn of the loop from `start` on. -/
theorem next_turn {p : Platform w σ} (hp : HalRanges p syspage table)
    (hsyspage : syspage.start < syspage.end_) (hle : start ≤ end_) (hal : σ) :
    (p.memoryGetNextEntry hal start end_ = none ∧
        ∀ a, start.toNat ≤ a → a < end_.toNat → ¬Covered (syspage :: table) a) ∨
      ∃ entry, p.memoryGetNextEntry hal start end_ = some entry ∧
        First start end_ (syspage :: table) entry ∧
        turnsLeft (syspage :: table) end_ entry.end_ < turnsLeft (syspage :: table) end_ start := by
  rw [hp]
  by_cases heq : start = end_
  · refine Or.inl ⟨by simp [memoryGetNextEntry, heq], fun a hlo hhi => ?_⟩
    rw [heq] at hlo
    omega
  · have hlt : start.toNat < end_.toNat := by
      have hne : start.toNat ≠ end_.toNat := fun h => heq (BitVec.eq_of_toNat_eq h)
      have := BitVec.le_def.mp hle
      omega
    refine (memoryGetNextEntry_cases (BitVec.lt_def.mp hsyspage) hlt).imp_right ?_
    rintro ⟨entry, hsome, hfirst⟩
    exact ⟨entry, hsome, hfirst, turnsLeft_lt_of_first hlt hfirst⟩

/-- What the loop has done when it stands at `start`: the entries take all of the ranges
below it. -/
structure Collected (ranges : List (MapEnt w)) (l : Nat) (start : BitVec w)
    (entries : List (MapEnt w)) : Prop where
  packed : Packed MapEnt.lo MapEnt.hi start.toNat l entries
  union : ∀ a, l ≤ a → a < start.toNat → (Covered ranges a ↔ Covered entries a)

theorem covered_sortedInsert {entries : List (MapEnt w)} {entry : MapEnt w} {a : Nat} :
    Covered (sortedInsert entries entry) a ↔
      (entry.start.toNat ≤ a ∧ a < entry.end_.toNat) ∨ Covered entries a := by
  simp only [Covered, sortedInsert, List.mem_orderedInsert, or_and_right, exists_or,
    exists_eq_left]

/-- The next entry continues what was collected. -/
theorem Collected.insert {ranges entries : List (MapEnt w)} {l : Nat} {entry : MapEnt w}
    (h : Collected ranges l start entries) (hfirst : First start end_ ranges entry) :
    Collected ranges l entry.end_ (sortedInsert entries entry) where
  packed := by
    have hstart := hfirst.start_le
    have hnon := hfirst.nonempty
    rw [sortedInsert_eq]
    refine (h.packed.mono_right (hstart.trans hnon.le)).orderedInsert
      (h.packed.le.trans hstart) hnon le_rfl ?_
    intro e he
    exact Or.inr ((h.packed.mem he).2.2.trans hstart)
  union := by
    intro a hl ha
    rw [covered_sortedInsert]
    by_cases hold : a < start.toNat
    · rw [h.union a hl hold]
      have hstart := hfirst.start_le
      exact ⟨Or.inr, fun hc => hc.resolve_left fun hin => by omega⟩
    · have hnew : ¬Covered entries a := by
        rintro ⟨e, he, -, hhi⟩
        have hend : e.end_.toNat ≤ start.toNat := (h.packed.mem he).2.2
        omega
      by_cases hin : entry.start.toNat ≤ a
      · exact ⟨fun _ => Or.inl ⟨hin, ha⟩, fun _ => hfirst.covered a hin ha⟩
      · have hfree := hfirst.free a (by omega) (by omega)
        exact ⟨fun hc => absurd hc hfree, fun hc => by
          cases hc with
          | inl hmem => omega
          | inr hold => exact absurd hold hnew⟩

section Loop
variable {p : Platform w σ} (hp : HalRanges p syspage table)
  (hsyspage : syspage.start < syspage.end_)
include hp hsyspage

/-- The ways a turn of the loop can go, as long as it may make enough of them. -/
theorem mapEntries_turn {fuel : Nat} (s : Common w σ) (entries : List (MapEnt w))
    (hle : start ≤ end_) (hfuel : turnsLeft (syspage :: table) end_ start ≤ fuel) :
    (mapEntries p end_ fuel s start entries = (s, entries, EOK) ∧
        ∀ a, start.toNat ≤ a → a < end_.toNat → ¬Covered (syspage :: table) a) ∨
      (0 < turnsLeft (syspage :: table) end_ start ∧ alloc p s p.sizeofMapent = none ∧
        mapEntries p end_ fuel s start entries = (s, entries, - ENOMEM)) ∨
      ∃ entry a s' f, First start end_ (syspage :: table) entry ∧
        turnsLeft (syspage :: table) end_ entry.end_ < turnsLeft (syspage :: table) end_ start ∧
        alloc p s p.sizeofMapent = some (a, s') ∧ fuel = f + 1 ∧
        mapEntries p end_ fuel s start entries =
          mapEntries p end_ f s' entry.end_ (sortedInsert entries entry) := by
  rcases next_turn hp hsyspage hle s.hal with ⟨hnone, hfree⟩ | ⟨entry, hsome, hfirst, hless⟩
  · refine Or.inl ⟨?_, hfree⟩
    cases fuel <;> simp only [mapEntries, hnone]
  · refine Or.inr ?_
    obtain ⟨f, rfl⟩ := Nat.exists_eq_succ_of_ne_zero (show fuel ≠ 0 by omega)
    cases halloc : alloc p s p.sizeofMapent with
    | none =>
        refine Or.inl ⟨by omega, rfl, ?_⟩
        simp only [mapEntries, hsome, halloc]
    | some r =>
        refine Or.inr ⟨entry, r.1, r.2, f, hfirst, hless, rfl, rfl, ?_⟩
        simp only [mapEntries, hsome, halloc]

/-- The entries are laid out whatever the heap; they take all of the ranges unless it has
run out. -/
theorem mapEntries_collects {l fuel : Nat} {s : Common w σ} {entries : List (MapEnt w)}
    (hle : start ≤ end_) (hfuel : turnsLeft (syspage :: table) end_ start ≤ fuel)
    (h : Collected (syspage :: table) l start entries) :
    Packed MapEnt.lo MapEnt.hi end_.toNat l (mapEntries p end_ fuel s start entries).2.1 ∧
      ((mapEntries p end_ fuel s start entries).2.2 = EOK →
        Collected (syspage :: table) l end_ (mapEntries p end_ fuel s start entries).2.1) := by
  induction fuel using Nat.strong_induction_on generalizing s start entries with
  | _ fuel ih =>
      have hlaid := h.packed.mono_right (BitVec.le_def.mp hle)
      rcases mapEntries_turn hp hsyspage s entries hle hfuel with
        ⟨heq, hfree⟩ | ⟨-, -, heq⟩ | ⟨entry, a, s', f, hfirst, hless, -, rfl, heq⟩
      · rw [heq]
        refine ⟨hlaid, fun _ => ⟨hlaid, fun a hl ha => ?_⟩⟩
        by_cases hold : a < start.toNat
        · exact h.union a hl hold
        · refine iff_of_false (hfree a (by omega) ha) ?_
          rintro ⟨e, he, -, hhi⟩
          have hend : e.end_.toNat ≤ start.toNat := (h.packed.mem he).2.2
          omega
      · rw [heq]
        exact ⟨hlaid, fun hok => absurd hok (show ¬(- ENOMEM : Int) = EOK by decide)⟩
      · rw [heq]
        exact ih f (by omega) (BitVec.le_def.mpr hfirst.end_le) (by omega) (h.insert hfirst)

/-- No more turns are made than there are ranges. -/
theorem mapEntries_turns {f g : Nat} (s : Common w σ) (entries : List (MapEnt w))
    (hle : start ≤ end_) (hf : turnsLeft (syspage :: table) end_ start ≤ f)
    (hg : turnsLeft (syspage :: table) end_ start ≤ g) :
    mapEntries p end_ f s start entries = mapEntries p end_ g s start entries := by
  induction f using Nat.strong_induction_on generalizing g s start entries with
  | _ f ih =>
      rcases next_turn hp hsyspage hle s.hal with ⟨hnone, -⟩ | ⟨entry, hsome, hfirst, hless⟩
      · cases f <;> cases g <;> simp only [mapEntries, hnone]
      · obtain ⟨f, rfl⟩ := Nat.exists_eq_succ_of_ne_zero (show f ≠ 0 by omega)
        obtain ⟨g, rfl⟩ := Nat.exists_eq_succ_of_ne_zero (show g ≠ 0 by omega)
        simp only [mapEntries, hsome]
        cases alloc p s p.sizeofMapent with
        | none => rfl
        | some r =>
            exact ih f (by omega) r.2 _ (BitVec.le_def.mpr hfirst.end_le) (by omega) (by omega)

/-- The loop succeeds when the heap has room for an entry in every turn. -/
theorem mapEntries_ok {fuel n : Nat} {s : Common w σ} (entries : List (MapEnt w))
    (hle : start ≤ end_) (hfuel : turnsLeft (syspage :: table) end_ start ≤ fuel)
    (hn : turnsLeft (syspage :: table) end_ start ≤ n)
    (hroom : (allocAll p s (List.replicate n p.sizeofMapent)).isSome) :
    (mapEntries p end_ fuel s start entries).2.2 = EOK := by
  induction fuel using Nat.strong_induction_on generalizing s start entries n with
  | _ fuel ih =>
      rcases mapEntries_turn hp hsyspage s entries hle hfuel with
        ⟨heq, -⟩ | ⟨hpos, halloc, -⟩ | ⟨entry, a, s', f, hfirst, hless, halloc, rfl, heq⟩
      · rw [heq]
      · obtain ⟨m, rfl⟩ := Nat.exists_eq_succ_of_ne_zero (show n ≠ 0 by omega)
        simp [List.replicate_succ, allocAll, halloc] at hroom
      · obtain ⟨m, rfl⟩ := Nat.exists_eq_succ_of_ne_zero (show n ≠ 0 by omega)
        simp only [List.replicate_succ, allocAll, halloc] at hroom
        rw [heq]
        exact ih f (by omega) _ (BitVec.le_def.mpr hfirst.end_le) (by omega) (by omega) hroom

end Loop

/-- The loop of `syspage_mapAdd` ends after at most as many turns as the HAL has ranges. Its
entries are in ascending order, apart, not empty and inside the map. They take exactly what
the ranges take of the map unless the heap runs out, and it does not if it has room for as
many entries. -/
theorem map_entries_take_hal_ranges (p : Platform w σ) (syspage : MapEnt w)
    (table : List (MapEnt w)) (hp : HalRanges p syspage table)
    (hsyspage : syspage.start < syspage.end_) (s : Common w σ) (htop : s.heapTop < p.heapLimit)
    (start end_ : BitVec w) (hlt : start < end_) :
    let r := mapEntries p end_ (heapFree p s) s start []
    (∀ fuel, table.length + 1 ≤ fuel → mapEntries p end_ fuel s start [] = r) ∧
      Laid start end_ r.2.1 ∧
      (r.2.2 = EOK → ∀ a, Covered r.2.1 a ↔
        Covered (syspage :: table) a ∧ start.toNat ≤ a ∧ a < end_.toNat) ∧
      ((allocAll p s (List.replicate (table.length + 1) p.sizeofMapent)).isSome →
        r.2.2 = EOK) := by
  intro r
  have hle : start ≤ end_ := BitVec.le_of_lt hlt
  have hturns := turnsLeft_le (syspage :: table) end_ start
  rw [List.length_cons] at hturns
  have hends : ∀ fuel, table.length + 1 ≤ fuel → mapEntries p end_ fuel s start [] = r := by
    intro fuel hfuel
    have hmax := mapEntries_turns hp hsyspage s [] hle (hturns.trans hfuel)
      (hturns.trans (hfuel.trans (Nat.le_max_left fuel (heapFree p s))))
    rw [hmax]
    exact mapEntries_enough end_ htop (Nat.le_max_right _ _) le_rfl start []
  have hnothing : Collected (syspage :: table) start.toNat start [] :=
    ⟨le_rfl, fun a hl ha => by omega⟩
  have hr : r = mapEntries p end_ (table.length + 1) s start [] := (hends _ le_rfl).symm
  obtain ⟨hpacked, hunion⟩ := mapEntries_collects hp hsyspage (s := s) hle hturns hnothing
  rw [← hr] at hpacked hunion
  refine ⟨hends, laid_of_packed hpacked, fun hok a => ?_, fun hroom => ?_⟩
  · have hall := (hunion hok).union a
    constructor
    · rintro ⟨e, he, hlo, hhi⟩
      obtain ⟨hl, -, hu⟩ := hpacked.mem he
      have hl' : start.toNat ≤ a := hl.trans hlo
      have hu' : a < end_.toNat := hhi.trans_le hu
      exact ⟨(hall hl' hu').mpr ⟨e, he, hlo, hhi⟩, hl', hu'⟩
    · rintro ⟨hc, hl, hu⟩
      exact (hall hl hu).mp hc
  · rw [hr]
    exact mapEntries_ok hp hsyspage [] hle hturns hturns hroom

end

/-- Sections that lie in one another, one of them empty, and the heap behind them. -/
def sections : List (MapEnt 64) :=
  [⟨0x80000, 0x90000, .temp⟩, ⟨0x84000, 0x84000, .temp⟩, ⟨0x88000, 0x98000, .temp⟩,
    ⟨0x80000, 0x82000, .temp⟩]

def rpi : Platform 64 Unit where
  heapBase := 0x100000
  heapLimit := 0x110000
  sizeofSyspage := 64
  sizeofMap := 64
  sizeofMapent := 40
  sizeofProg := 64
  sizePage := 0x1000
  memoryGetNextEntry := fun _ => memoryGetNextEntry ⟨0x100000, 0x110000, .reserved⟩ sections
  memoryAddMap := fun hal _ _ _ _ => (hal, EOK)
  heapLimit_room := by decide
  sizeofMapent_pos := by decide

theorem map_entries_take_hal_ranges_rpi :
    let r := mapEntries rpi 0x108000 (heapFree rpi (init rpi ())) (init rpi ()) 0x81000 []
    r.2.1.map (fun e => (e.start.toNat, e.end_.toNat)) =
        [(0x81000, 0x90000), (0x90000, 0x98000), (0x100000, 0x108000)] ∧ r.2.2 = EOK := by
  have h := map_entries_take_hal_ranges rpi ⟨0x100000, 0x110000, .reserved⟩ sections
    (fun _ _ _ => rfl) (by decide) (init rpi ()) (by decide) 0x81000 0x108000 (by decide)
  refine ⟨?_, h.2.2.2 (by decide +kernel)⟩
  rw [← h.1 5 (by decide)]
  decide +kernel

end Plo.Syspage
