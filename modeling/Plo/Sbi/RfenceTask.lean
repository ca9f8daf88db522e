import Mathlib.Data.List.Basic
import Plo.Sbi.Rfence

/-!
What a call asks of the harts it is for, and the handlers that do it. A handler that
finds the block of its call in place issues the fences of that call one after the
other and returns, unless the size wraps the page counter around.
-/
namespace Plo.Sbi

section Fence

def SfenceVmaInfo.pages (info : SfenceVmaInfo) : Nat := (info.size.toNat + 0xfff) / 0x1000

/-- The fences of the first `n` pages. -/
def SfenceVmaInfo.fencePages (info : SfenceVmaInfo) (asid : Option (BitVec 32)) (n : Nat) :
    List Fence :=
  (List.range n).map fun k => .sfenceVma (some (info.start + BitVec.ofNat 64 (k * 0x1000))) asid

def SfenceVmaInfo.fence (info : SfenceVmaInfo) (asid : Option (BitVec 32)) : List Fence :=
  if info.FlushAll then [.sfenceVma none asid] else info.fencePages asid info.pages

/-- What a hart of its mask is to issue for a call. -/
def Call.fence (c : Call) : List Fence :=
  match c.handler with
  | some .fencei => [.fenceI]
  | some .sfenceVma => c.info.fence none
  | some .sfenceVmaAsid => c.info.fence (some c.info.asid)
  | some .sendIpi | none => []

/-- The page counter gets past the size. -/
def SfenceVmaInfo.Ends (info : SfenceVmaInfo) : Prop :=
  info.FlushAll ∨ info.size.toNat + 0x1000 ≤ 2 ^ 64

/-- The handler reads the block, for this ASID. -/
inductive Reads (info : SfenceVmaInfo) : Option TaskHandler → Option (BitVec 32) → Prop
  | sfenceVma : Reads info (some .sfenceVma) none
  | sfenceVmaAsid : Reads info (some .sfenceVmaAsid) (some info.asid)

end Fence

section Execution
variable {c : Call} {info : Nat → SfenceVmaInfo} {e : Execution}

/-- How far the handler of a call has come and what it has issued on the way. -/
inductive Partway (c : Call) (e : Execution) : Prop
  | entry {handler : TaskHandler} (hpoint : e.point = some .entry)
      (hhandler : c.handler = some handler) (hissued : e.issued = [])
  | page {asid : Option (BitVec 32)} {i : BitVec 64} {k : Nat} (hpoint : e.point = some (.page i))
      (hreads : Reads c.info c.handler asid) (hpages : ¬ c.info.FlushAll)
      (hi : i.toNat = k * 0x1000) (hk : k ≤ c.info.pages)
      (hissued : e.issued = c.info.fencePages asid k)
  | returned (hpoint : e.point = none) (hissued : e.issued = c.fence)

theorem Partway.issued_eq (h : Partway c e) (hpoint : e.point = none) : e.issued = c.fence := by
  cases h with
  | entry hp =>
      rw [hp] at hpoint
      cases hpoint
  | page hp =>
      rw [hp] at hpoint
      cases hpoint
  | returned _ hissued => exact hissued

/-- The steps a handler still has to take. -/
def Execution.left (c : Call) (e : Execution) : Nat :=
  match e.point with
  | none => 0
  | some .entry => c.info.pages + 2
  | some (.page i) => c.info.pages - i.toNat / 0x1000 + 1

/-- The task is one of the call and still points to its block. -/
structure Points (info : Nat → SfenceVmaInfo) (task : Task) (c : Call) : Prop where
  handler : task.handler = c.handler
  data : ∀ asid, Reads c.info c.handler asid → task.data.map info = some c.info ∧ c.info.Ends

theorem partway_start {task : Task} (h : task.handler = c.handler) :
    Partway c (Execution.start task) := by
  cases hc : c.handler with
  | none =>
      refine .returned ?_ ?_
      · simp only [Execution.start, h, hc, Option.map_none]
      · simp only [Execution.start, Call.fence, hc]
  | some handler =>
      refine .entry ?_ hc rfl
      simp only [Execution.start, h, hc, Option.map_some]

theorem fencePages_succ (info : SfenceVmaInfo) (asid : Option (BitVec 32)) (k : Nat) :
    info.fencePages asid (k + 1) = info.fencePages asid k ++
      [.sfenceVma (some (info.start + BitVec.ofNat 64 (k * 0x1000))) asid] := by
  simp only [SfenceVmaInfo.fencePages, List.range_succ, List.map_append, List.map_singleton]

theorem Reads.fence {asid : Option (BitVec 32)} (h : Reads c.info c.handler asid) :
    c.fence = c.info.fence asid := by
  obtain ⟨handler, info, hartMask⟩ := c
  cases h with
  | sfenceVma => rfl
  | sfenceVmaAsid => rfl

theorem next_of_reads {asid : Option (BitVec 32)} {point : Point}
    (h : Points info e.task c) (hreads : Reads c.info c.handler asid)
    (hpoint : e.point = some point) :
    e.next info = some { e with
      point := (sfenceVmaNext asid c.info point).2
      issued := e.issued ++ (sfenceVmaNext asid c.info point).1 } := by
  have hdata := (h.data asid hreads).1
  have hhandler := h.handler
  generalize c.handler = handler at hreads hhandler
  cases hreads with
  | sfenceVma => simp only [Execution.next, hhandler, hpoint, hdata, TaskHandler.next]; rfl
  | sfenceVmaAsid => simp only [Execution.next, hhandler, hpoint, hdata, TaskHandler.next]; rfl

/-- A turn of the loop over the pages. -/
theorem next_page {asid : Option (BitVec 32)} {i : BitVec 64} {k : Nat}
    (h : Points info e.task c) (hpoint : e.point = some (.page i))
    (hreads : Reads c.info c.handler asid) (hpages : ¬ c.info.FlushAll)
    (hi : i.toNat = k * 0x1000) (hk : k ≤ c.info.pages)
    (hissued : e.issued = c.info.fencePages asid k) :
    ∃ e', e.next info = some e' ∧ e'.task = e.task ∧ Partway c e' ∧ e'.left c < e.left c := by
  have hends := (h.data asid hreads).2.resolve_left hpages
  refine ⟨_, next_of_reads h hreads hpoint, rfl, ?_⟩
  have hlt : i < c.info.size ↔ k < c.info.pages := by
    rw [BitVec.lt_def, hi, SfenceVmaInfo.pages]
    omega
  simp only [sfenceVmaNext, hlt]
  by_cases hmore : k < c.info.pages
  · simp only [if_pos hmore]
    have hnext : (i + PAGE_SIZE).toNat = (k + 1) * 0x1000 := by
      have hwrap : (k + 1) * 0x1000 < 2 ^ 64 := by
        simp only [SfenceVmaInfo.pages] at hmore
        omega
      rw [BitVec.toNat_add, hi, show PAGE_SIZE.toNat = 0x1000 from rfl]
      omega
    refine ⟨.page rfl hreads hpages hnext hmore ?_, ?_⟩
    · rw [hissued, fencePages_succ, ← hi, BitVec.ofNat_toNat, BitVec.setWidth_eq]
    · simp only [Execution.left, hpoint, hnext, hi]
      omega
  · simp only [if_neg hmore]
    refine ⟨.returned rfl ?_, ?_⟩
    · rw [hissued, List.append_nil, hreads.fence, SfenceVmaInfo.fence, if_neg hpages,
        Nat.le_antisymm hk (Nat.le_of_not_lt hmore)]
    · simp only [Execution.left, hpoint]
      omega

/-- The step of a handler that reads the block, from its test on. -/
theorem next_entry {asid : Option (BitVec 32)} (h : Points info e.task c)
    (hpoint : e.point = some .entry) (hreads : Reads c.info c.handler asid)
    (hissued : e.issued = []) :
    ∃ e', e.next info = some e' ∧ e'.task = e.task ∧ Partway c e' ∧ e'.left c < e.left c := by
  refine ⟨_, next_of_reads h hreads hpoint, rfl, ?_⟩
  simp only [sfenceVmaNext]
  by_cases hall : c.info.FlushAll
  · simp only [if_pos hall]
    refine ⟨.returned rfl ?_, ?_⟩
    · rw [hissued, List.nil_append, hreads.fence, SfenceVmaInfo.fence, if_pos hall]
    · simp only [Execution.left, hpoint]
      omega
  · simp only [if_neg hall]
    refine ⟨.page (k := 0) rfl hreads hall rfl (Nat.zero_le _) ?_, ?_⟩
    · rw [hissued]
      rfl
    · simp only [Execution.left, hpoint]
      omega

/-- A handler goes on towards the fences of its call. -/
theorem next_partway (h : Points info e.task c) (hpart : Partway c e) (hpoint : e.point ≠ none) :
    ∃ e', e.next info = some e' ∧ e'.task = e.task ∧ Partway c e' ∧ e'.left c < e.left c := by
  cases hpart with
  | returned hnone => exact absurd hnone hpoint
  | page hp hreads hpages hi hk hissued => exact next_page h hp hreads hpages hi hk hissued
  | @entry handler hp hc hissued =>
      have hhandler := h.handler.trans hc
      have hshort (fences : List Fence) (hfence : c.fence = fences)
          (hnext : e.next info = some { e with point := none, issued := e.issued ++ fences }) :
          ∃ e', e.next info = some e' ∧ e'.task = e.task ∧ Partway c e' ∧ e'.left c < e.left c := by
        refine ⟨_, hnext, rfl, .returned rfl ?_, ?_⟩
        · rw [hissued, List.nil_append, hfence]
        · simp only [Execution.left, hp]
          omega
      cases handler with
      | sfenceVma => exact next_entry h hp (by rw [hc]; exact .sfenceVma) hissued
      | sfenceVmaAsid => exact next_entry h hp (by rw [hc]; exact .sfenceVmaAsid) hissued
      | fencei =>
          refine hshort [.fenceI] (by simp only [Call.fence, hc]) ?_
          simp only [Execution.next, hhandler, hp, TaskHandler.next]
          rfl
      | sendIpi =>
          refine hshort [] (by simp only [Call.fence, hc]) ?_
          simp only [Execution.next, hhandler, hp, TaskHandler.next]
          rfl

end Execution
end Plo.Sbi
