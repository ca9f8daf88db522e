import Plo.Devices.XspiCrypt

/-!
The split of one memory between the plain and the encrypted device. Whatever the
memory encryption answers, the regions in use stay apart from one another. An access
is accepted by the plain device only away from all of them, and by the encrypted
device only inside a single one.
-/
namespace Plo.Devices.Xspi

/-- The bytes of a region that is in use. -/
def EncrRegion.Covers (r : EncrRegion) (b : Nat) : Prop :=
  r.enabled = true ∧ r.start ≤ b ∧ b < r.stop

/-- The range lies in a region that is in use. -/
def EncrRegion.Lies (r : EncrRegion) (off stop : Nat) : Prop :=
  r.enabled = true ∧ r.start ≤ off ∧ stop ≤ r.stop

def EncrRegion.Apart (r r' : EncrRegion) : Prop := ∀ b, r.Covers b → ¬r'.Covers b

/-- A region in use is not empty and lies in the memory. -/
def EncrRegion.Valid (r : EncrRegion) (memSize : Nat) : Prop :=
  r.enabled = true → r.start < r.stop ∧ r.stop ≤ memSize

structure Split (memSize : Nat) (table : Table) : Prop where
  apart : table.Pairwise EncrRegion.Apart
  valid : ∀ r ∈ table, r.Valid memSize

theorem EncrRegion.apart_symm {r r' : EncrRegion} (h : r.Apart r') : r'.Apart r :=
  fun b h' hr => h b hr h'

theorem Split.apart_at {memSize : Nat} {table : Table} (h : Split memSize table) {i j : Nat}
    {r r' : EncrRegion} (hi : table[i]? = some r) (hj : table[j]? = some r') (hne : i ≠ j) :
    r.Apart r' := by
  obtain ⟨hilt, rfl⟩ := List.getElem?_eq_some_iff.mp hi
  obtain ⟨hjlt, rfl⟩ := List.getElem?_eq_some_iff.mp hj
  have hpair := List.pairwise_iff_getElem.mp h.apart
  cases Nat.lt_or_gt_of_ne hne with
  | inl hlt => exact hpair i j hilt hjlt hlt
  | inr hgt => exact EncrRegion.apart_symm (hpair j i hjlt hilt hgt)

/-- One region more in use, apart from those that are. -/
theorem Split.set_region {memSize : Nat} {table : Table} (h : Split memSize table) {i : Nat}
    {r : EncrRegion} (hvalid : r.Valid memSize) (hapart : ∀ r' ∈ table, r.Apart r') :
    Split memSize (table.set i r) where
  apart := by
    apply List.pairwise_iff_getElem.mpr
    intro j k hj hk hlt
    rw [List.length_set] at hj hk
    rw [List.getElem_set, List.getElem_set]
    split
    · rw [if_neg (by omega)]
      exact hapart _ (List.getElem_mem hk)
    · split
      · exact EncrRegion.apart_symm (hapart _ (List.getElem_mem hj))
      · exact List.pairwise_iff_getElem.mp h.apart j k hj hk hlt
  valid := by
    intro r' hr'
    cases List.mem_or_eq_of_mem_set hr' with
    | inl hmem => exact h.valid r' hmem
    | inr heq => exact heq ▸ hvalid

/-- A range that does not go over a bound of a region and is not held by it has no byte
of it. -/
theorem EncrRegion.not_covers {r : EncrRegion} {off stop : Nat} (hcross : r.crossed off stop = false)
    (hholds : r.holds off stop = false) {b : Nat} (hlo : off ≤ b) (hhi : b < stop) :
    ¬r.Covers b := by
  simp only [crossed, Bool.or_eq_false_iff, Bool.and_eq_false_iff, decide_eq_false_iff_not] at hcross
  simp only [holds, Bool.and_eq_false_iff, decide_eq_false_iff_not] at hholds
  rintro ⟨-, hs, he⟩
  omega

/-- What the search for a region can answer: a bound is crossed, a region holds the range,
or no region has a byte of it. -/
theorem xspidrvGetRegion_cases (off stop i : Nat) (table : Table) :
    xspidrvGetRegion off stop i table = -1 ∨
      (∃ k r, xspidrvGetRegion off stop i table = ((i + k : Nat) : Int) ∧ table[k]? = some r ∧
        r.Lies off stop) ∨
      (xspidrvGetRegion off stop i table = ((i + table.length : Nat) : Int) ∧
        ∀ r ∈ table, ∀ b, off ≤ b → b < stop → ¬r.Covers b) := by
  induction table generalizing i with
  | nil => exact Or.inr (Or.inr ⟨rfl, by simp⟩)
  | cons r rs ih =>
      -- a region that is passed over has no byte of the range
      have skip : (∀ b, off ≤ b → b < stop → ¬r.Covers b) →
          xspidrvGetRegion off stop i (r :: rs) = xspidrvGetRegion off stop (i + 1) rs →
          xspidrvGetRegion off stop i (r :: rs) = -1 ∨
            (∃ k r', xspidrvGetRegion off stop i (r :: rs) = ((i + k : Nat) : Int) ∧
              (r :: rs)[k]? = some r' ∧ r'.Lies off stop) ∨
            (xspidrvGetRegion off stop i (r :: rs) = ((i + (r :: rs).length : Nat) : Int) ∧
              ∀ r' ∈ r :: rs, ∀ b, off ≤ b → b < stop → ¬r'.Covers b) := by
        intro hr heq
        rw [heq]
        rcases ih (i + 1) with h | ⟨k, r', h, hk, hl⟩ | ⟨h, hall⟩
        · exact Or.inl h
        · refine Or.inr (Or.inl ⟨k + 1, r', ?_, by simpa using hk, hl⟩)
          rw [h, Nat.add_assoc, Nat.add_comm 1 k]
        · refine Or.inr (Or.inr ⟨?_, ?_⟩)
          · rw [h, List.length_cons, Nat.add_assoc, Nat.add_comm 1]
          · intro r' hr'
            cases List.mem_cons.mp hr' with
            | inl he => exact he ▸ hr
            | inr hm => exact hall r' hm
      by_cases hen : r.enabled = false
      · apply skip
        · rintro b - - ⟨hen', -, -⟩
          simp [hen] at hen'
        · simp [xspidrvGetRegion, hen]
      · cases hcross : r.crossed off stop with
        | true => exact Or.inl (by simp [xspidrvGetRegion, hen, hcross])
        | false =>
            cases hholds : r.holds off stop with
            | true =>
                refine Or.inr (Or.inl ⟨0, r, by simp [xspidrvGetRegion, hen, hcross, hholds], rfl, ?_⟩)
                simp only [EncrRegion.holds, Bool.and_eq_true, decide_eq_true_eq] at hholds
                exact ⟨by simpa using hen, hholds⟩
            | false =>
                apply skip
                · exact fun b => EncrRegion.not_covers hcross hholds
                · simp [xspidrvGetRegion, hen, hcross, hholds]

variable {ctrl : Ctrl}

/-- An accepted range is in the memory. The plain device gets no byte of a region, the
encrypted one a range in the region it is given. -/
theorem validate_ok {table : Table} {off size : UInt32} {encrypted : Bool}
    (h : 0 ≤ xspidrvValidateAndGetRegion ctrl table off size encrypted) :
    off.toNat + size.toNat ≤ ctrl.memSize ∧
      (encrypted = false → ∀ r ∈ table, ∀ b, off.toNat ≤ b → b < off.toNat + size.toNat →
        ¬r.Covers b) ∧
      (encrypted = true → ∃ (k : Nat) (r : EncrRegion),
        xspidrvValidateAndGetRegion ctrl table off size encrypted = k ∧ table[k]? = some r ∧ r.Lies off.toNat (off.toNat + size.toNat)) := by
  have hneg : ¬(0 : Int) ≤ - EINVAL := by decide
  have hoff := off.toNat_lt
  have hsize := size.toNat_lt
  have hmem := ctrl.memSize_lt
  simp only [xspidrvValidateAndGetRegion] at h ⊢
  split at h
  · exact absurd h hneg
  · rename_i hen
    split at h
    · exact absurd h hneg
    · rename_i hwrap
      split at h
      · exact absurd h hneg
      · rename_i hin
        have hstop : (off.toNat + size.toNat) % 2 ^ 32 = off.toNat + size.toNat := by omega
        rw [hstop] at h hwrap hin ⊢
        split at h
        · exact absurd h hneg
        · rename_i hreg
          split at h
          · exact absurd h hneg
          · rename_i hkind
            rw [if_neg hen, if_neg hwrap, if_neg hin, if_neg hreg, if_neg hkind]
            refine ⟨by omega, ?_, ?_⟩
            · rintro rfl
              rcases xspidrvGetRegion_cases off.toNat (off.toNat + size.toNat) 0 table with
                hc | ⟨k, r, hc, hk, -⟩ | ⟨-, hall⟩
              · omega
              · have hlt := (List.getElem?_eq_some_iff.mp hk).1
                have hne : ((k : Int) == table.length) = false := by
                  simp only [beq_eq_false_iff_ne]; omega
                simp [hc, hne] at hkind
              · exact hall
            · rintro rfl
              rcases xspidrvGetRegion_cases off.toNat (off.toNat + size.toNat) 0 table with
                hc | ⟨k, r, hc, hk, hl⟩ | ⟨hc, -⟩
              · omega
              · exact ⟨k, r, by simpa using hc, hk, hl⟩
              · simp [hc] at hkind

/-- The region a request is answered with is not empty, in the memory, and has no byte of
the regions in use before. -/
theorem Split.memcrypt {table : Table} (hs : Split ctrl.memSize table) (args : MemcryptArgs)
    (mce : MceResults) : Split ctrl.memSize (xspidrvMemcrypt ctrl table args mce).1 := by
  simp only [xspidrvMemcrypt]
  split
  · exact hs
  · rename_i hlt
    split
    · exact hs
    · rename_i hval
      split
      · exact hs
      · split
        · exact hs
        · split
          · exact hs
          · have hlt' : args.start.toNat < args.stop.toNat := by
              have := UInt32.le_iff_toNat_le.not.mp hlt
              omega
            have hsize : (args.stop - args.start).toNat = args.stop.toNat - args.start.toNat :=
              UInt32.toNat_sub_of_le _ _ (UInt32.le_iff_toNat_le.mpr hlt'.le)
            obtain ⟨hin, hplain, -⟩ := validate_ok (Int.not_lt.mp hval)
            have hfree := hplain rfl
            rw [hsize, Nat.add_sub_cancel' hlt'.le] at hin hfree
            refine hs.set_region ?_ ?_
            · exact fun _ => ⟨hlt', hin⟩
            · rintro r hr b ⟨-, hlo, hhi⟩
              exact hfree r hr b hlo hhi

/-- Calls to one controller. What the memory encryption will answer comes with the call. -/
inductive Call where
  | memcrypt (args : MemcryptArgs) (mce : MceResults)
  | read (offs len : UInt32) (encrypted : Bool)
  | write (offs len : UInt32) (encrypted : Bool)

def step (ctrl : Ctrl) (table : Table) : Call → Table
  | .memcrypt args mce => (xspidrvMemcrypt ctrl table args mce).1
  | .read _ _ _ => table
  | .write _ _ _ => table

/-- The table before the first call, with `n` regions. -/
def noRegions (n : Nat) : Table := List.replicate n ⟨false, 0, 0, 0⟩

theorem split_noRegions (n : Nat) : Split ctrl.memSize (noRegions n) where
  apart := by
    apply List.pairwise_replicate.mpr
    exact Or.inr fun b h => absurd h.1 (by simp)
  valid := by
    intro r hr hen
    simp [List.eq_of_mem_replicate hr] at hen

theorem split_run (n : Nat) (calls : List Call) :
    Split ctrl.memSize (calls.foldl (step ctrl) (noRegions n)) := by
  have hreach := (@Reachable.init _ _ (step ctrl) (fun _ _ => True)
    (noRegions n)).foldl calls (fun _ _ _ => trivial)
  refine hreach.invariant (split_noRegions n) ?_
  rintro table (⟨args, mce⟩ | ⟨offs, len, encrypted⟩ | ⟨offs, len, encrypted⟩) hs -
  · exact hs.memcrypt args mce
  · exact hs
  · exact hs

/-- A range that is not empty lies in one region at most. -/
theorem Split.lies_unique {memSize : Nat} {table : Table} (hs : Split memSize table) {off stop : Nat}
    (hne : off < stop) {i j : Nat} {r r' : EncrRegion} (hi : table[i]? = some r)
    (hj : table[j]? = some r') (hr : r.Lies off stop) (hr' : r'.Lies off stop) : i = j := by
  by_contra h
  exact hs.apart_at hi hj h off ⟨hr.1, hr.2.1, by have := hr.2.2; omega⟩
    ⟨hr'.1, hr'.2.1, by have := hr'.2.2; omega⟩

theorem validate_of_read {table : Table} {offs len : UInt32} {encrypted : Bool} {k : Nat}
    (h : xspidrvRead ctrl table offs len encrypted = .ok k) :
    xspidrvValidateAndGetRegion ctrl table offs len encrypted = k := by
  simp only [xspidrvRead] at h
  split at h
  · cases h
  · rename_i hneg
    cases h
    exact (Int.toNat_of_nonneg (Int.not_lt.mp hneg)).symm

/-- A write is accepted where a read is, and aligned to the granularity of its region. -/
theorem validate_of_write {table : Table} {offs len : UInt32} {encrypted : Bool} {k : Nat}
    (h : xspidrvWrite ctrl table offs len encrypted = .ok k) :
    xspidrvValidateAndGetRegion ctrl table offs len encrypted = k ∧
      ∀ r, table[k]? = some r → 1 < r.granularity →
        r.granularity ∣ offs.toNat ∧ r.granularity ∣ len.toNat := by
  simp only [xspidrvWrite] at h
  split at h
  · cases h
  · rename_i hneg
    have hk := Int.toNat_of_nonneg (Int.not_lt.mp hneg)
    split at h
    · rename_i hnone
      cases h
      refine ⟨hk.symm, fun r hr => ?_⟩
      simp [hr] at hnone
    · rename_i r hsome
      split at h
      · cases h
      · rename_i halign
        cases h
        refine ⟨hk.symm, fun r' hr' hgran => ?_⟩
        obtain rfl : r = r' := by simpa [hsome] using hr'
        rw [Nat.dvd_iff_mod_eq_zero, Nat.dvd_iff_mod_eq_zero]
        have hnot := fun h => halign ⟨hgran, h⟩
        simpa [not_or] using hnot

/-- Two regions of four are in use, the second with a granularity of 16; a request across
the first one is refused. -/
def someCalls : List Call :=
  [.memcrypt ⟨0x1000, 0x2000⟩ ⟨0, 1⟩, .memcrypt ⟨0x1800, 0x2800⟩ ⟨0, 16⟩, .read 0x1000 4 true,
    .memcrypt ⟨0x4000, 0x5000⟩ ⟨0, 16⟩, .write 0x4000 16 true]

end Plo.Devices.Xspi
