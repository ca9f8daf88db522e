import Plo.Devices.NandFaults
import Plo.Devices.NandTransfers

/-!
Which blocks get marked bad. A synchronisation marks only blocks it failed to erase
or to write. A round of `data_write` that starts with the error of an earlier round
and reads nothing in front of its data marks a block no operation failed on; all
other rounds mark only blocks they failed to read.
-/
namespace Plo.Devices.Nand.Faulty

section Log

/-- In a log, the newest event first, a block is marked after a failure in it. -/
def Justified : List Event → Prop
  | [] => True
  | .failed _ :: older => Justified older
  | .markbad block :: older => .failed block ∈ older ∧ Justified older

instance Justified.decidable : (log : List Event) → Decidable (Justified log)
  | [] => .isTrue trivial
  | .failed _ :: older => Justified.decidable older
  | .markbad block :: older =>
    haveI := Justified.decidable older
    inferInstanceAs (Decidable (Event.failed block ∈ older ∧ Justified older))

theorem Justified.of_append {newer older : List Event} (h : Justified (newer ++ older)) :
    Justified older := by
  induction newer with
  | nil => exact h
  | cons event newer ih =>
      cases event with
      | failed block => exact ih h
      | markbad block => exact ih h.2

theorem Justified.of_suffix {log log' : List Event} (hlog : log <:+ log') (h : Justified log') :
    Justified log := by
  obtain ⟨newer, rfl⟩ := hlog
  exact h.of_append

/-- What happened since marks only blocks that failed, unless `stale`. -/
structure Logged (stale : Prop) (dev dev' : FaultyDev) : Prop where
  suffix : dev.log <:+ dev'.log
  justified : Justified dev.log → (Justified dev'.log ↔ ¬stale)

/-- The blocks that failed are bad. -/
def FailedBad (dev : FaultyDev) : Prop := ∀ block, .failed block ∈ dev.log → dev.bad block = true

variable {dev dev₁ dev₂ : FaultyDev} {stale : Prop}

theorem Logged.of_eq (h : dev₁.log = dev.log) : Logged False dev dev₁ where
  suffix := h ▸ List.suffix_rfl
  justified := by
    rw [h]
    exact fun hj => ⟨fun _ => id, fun _ => hj⟩

/-- A log that is unjustified stays so. -/
theorem Logged.seq {stale' : Prop} (h₁ : Logged stale dev dev₁) (h₂ : Logged stale' dev₁ dev₂) :
    Logged (stale ∨ stale') dev dev₂ where
  suffix := h₁.suffix.trans h₂.suffix
  justified := by
    intro hj
    by_cases hstale : stale
    · have hnot : ¬Justified dev₁.log := fun h => (h₁.justified hj).mp h hstale
      exact ⟨fun h => absurd (h.of_suffix h₂.suffix) hnot, fun h => absurd (.inl hstale) h⟩
    · rw [h₂.justified ((h₁.justified hj).mpr hstale), or_iff_right hstale]

theorem Logged.congr {stale' : Prop} (h : Logged stale dev dev₁) (heq : stale ↔ stale') :
    Logged stale' dev dev₁ where
  suffix := h.suffix
  justified := by
    rw [← heq]
    exact h.justified

theorem Logged.trans (h₁ : Logged False dev dev₁) (h₂ : Logged stale dev₁ dev₂) :
    Logged stale dev dev₂ :=
  (h₁.seq h₂).congr (or_iff_right id)

end Log

section Attempts
variable (faults : Faults) (nand : NandInfo)

/-- Operations on one block, up to the first that fails. -/
structure Attempt (block : Nat) (dev : FaultyDev) (r : FaultyDev × Bool) : Prop where
  log : r.1.log = if r.2 then .failed block :: dev.log else dev.log
  bad : ∀ b, dev.bad b = true → r.1.bad b = true
  wnand : r.1.wnand = dev.wnand
  wblock : r.1.wblock = dev.wblock

variable {block : Nat} {dev : FaultyDev} {r r' : FaultyDev × Bool}

theorem Attempt.none (dev : FaultyDev) : Attempt block dev (dev, false) :=
  ⟨rfl, fun _ h => h, rfl, rfl⟩

theorem Attempt.andThen (h : Attempt block dev r) (h' : r.2 = false → Attempt block r.1 r') :
    Attempt block dev (if r.2 then r else r') := by
  have hlog := h.log
  cases herr : r.2 with
  | true =>
      rw [if_pos rfl]
      exact h
  | false =>
      have hnext := h' herr
      rw [herr, if_neg Bool.false_ne_true] at hlog
      rw [if_neg Bool.false_ne_true]
      exact ⟨by rw [hnext.log, hlog], fun b hb => hnext.bad b (h.bad b hb),
        hnext.wnand.trans h.wnand, hnext.wblock.trans h.wblock⟩

/-- A marker only turns bad. -/
theorem update_bad (bad : Nat → Bool) (block : Nat) (marker : Bool) (b : Nat) (h : bad b = true) :
    Function.update bad block (bad block || marker) b = true := by
  by_cases heq : b = block
  · rw [heq] at h ⊢
    rw [Function.update_self, h, Bool.true_or]
  · rw [Function.update_of_ne heq, h]

theorem erase_attempt (dev : FaultyDev) (block : Nat) :
    Attempt block dev (erase faults nand dev block) := by
  rw [erase]
  split
  · exact ⟨rfl, update_bad _ _ _, rfl, rfl⟩
  · exact ⟨rfl, fun _ h => h, rfl, rfl⟩

theorem write_attempt (dev : FaultyDev) (block i : Nat) :
    Attempt block dev (write faults nand dev block i) := by
  rw [write]
  split
  · exact ⟨rfl, update_bad _ _ _, rfl, rfl⟩
  · exact ⟨rfl, fun _ h => h, rfl, rfl⟩

theorem read_attempt (dev : FaultyDev) (block i : Nat) :
    Attempt block dev (read faults nand dev block i) := by
  rw [read]
  split
  · exact ⟨rfl, fun _ h => h, rfl, rfl⟩
  · exact ⟨rfl, fun _ h => h, rfl, rfl⟩

theorem writePages_attempt (dev : FaultyDev) (block i n : Nat) :
    Attempt block dev (writePages faults nand dev block i n) := by
  induction n generalizing dev i with
  | zero => exact Attempt.none dev
  | succ n ih => exact (write_attempt faults nand dev block i).andThen fun _ => ih _ _

theorem writeBlock_attempt (dev : FaultyDev) (block : Nat) :
    Attempt block dev (writeBlock faults nand dev block) :=
  (erase_attempt faults nand dev block).andThen fun _ => writePages_attempt faults nand _ block 0 _

theorem loadPages_attempt (dev : FaultyDev) (block i n : Nat) :
    Attempt block dev (loadPages faults nand dev block i n) := by
  induction n generalizing dev i with
  | zero => exact Attempt.none dev
  | succ n ih => exact (read_attempt faults nand dev block i).andThen fun _ => ih _ _

/-- Without an error from before, the reads tell whether the block can be cached. -/
theorem readBlock_attempt (dev : FaultyDev) {err : Bool} (block : Nat) {boffs : Nat} (len : Nat)
    (h : ¬(err = true ∧ frontPages nand boffs = 0)) :
    Attempt block dev (readBlock faults nand dev err block boffs len) := by
  have hfront := loadPages_attempt faults nand dev block 0 (frontPages nand boffs)
  rw [readBlock]
  by_cases hnone : frontPages nand boffs = 0
  · have herr : err = false := Bool.eq_false_iff.mpr fun herr => h ⟨herr, hnone⟩
    rw [hnone] at hfront ⊢
    rw [if_pos rfl, herr, if_neg Bool.false_ne_true]
    exact hfront.andThen fun _ => loadPages_attempt faults nand _ block _ _
  · rw [if_neg hnone]
    have hrest := hfront.andThen fun _ => loadPages_attempt faults nand
      (loadPages faults nand dev block 0 (frontPages nand boffs)).1 block
      (max (frontPages nand boffs) ((boffs + len) / nand.writesz))
      (nand.npages - max (frontPages nand boffs) ((boffs + len) / nand.writesz))
    cases herr : (loadPages faults nand dev block 0 (frontPages nand boffs)).2 with
    | true =>
        rw [herr, if_pos rfl] at hrest
        rw [if_pos rfl, ← herr]
        exact hrest
    | false =>
        rw [herr, if_neg Bool.false_ne_true] at hrest
        rw [if_neg Bool.false_ne_true]
        exact hrest

end Attempts

section Marks
variable (faults : Faults) {nand : NandInfo} {dev : FaultyDev} {block : Nat}
  {r : FaultyDev × Bool}

theorem Attempt.logged (h : Attempt block dev r) : Logged False dev r.1 := by
  have hlog := h.log
  cases herr : r.2 with
  | true =>
      rw [herr, if_pos rfl] at hlog
      refine ⟨⟨[.failed block], hlog.symm⟩, fun hj => ?_⟩
      rw [hlog]
      exact ⟨fun _ => id, fun _ => hj⟩
  | false =>
      rw [herr, if_neg Bool.false_ne_true] at hlog
      exact Logged.of_eq hlog

theorem Attempt.failedBad (h : Attempt block dev r) (hok : r.2 = false) (hinv : FailedBad dev) :
    FailedBad r.1 := by
  intro b hb
  rw [h.log, hok, if_neg Bool.false_ne_true] at hb
  exact h.bad b (hinv b hb)

/-- A block on which an operation failed may be marked. -/
theorem Attempt.markbad (h : Attempt block dev r) (herr : r.2 = true) :
    Logged False dev (markbad faults r.1 block).1 := by
  have hlog : (Faulty.markbad faults r.1 block).1.log =
      [.markbad block, .failed block] ++ dev.log := by
    rw [Faulty.markbad]
    simp only [h.log, herr, if_true, List.cons_append, List.nil_append]
  refine ⟨⟨_, hlog.symm⟩, fun hj => ?_⟩
  rw [hlog]
  exact ⟨fun _ => id, fun _ => ⟨List.mem_cons_self, hj⟩⟩

/-- The blocks that failed are bad, but perhaps for one. -/
theorem Attempt.failed (h : Attempt block dev r) (hinv : FailedBad dev) (b : Nat)
    (hb : .failed b ∈ r.1.log) : b = block ∨ r.1.bad b = true := by
  rw [h.log] at hb
  split at hb
  · cases hb with
    | head => exact .inl rfl
    | tail _ hb => exact .inr (h.bad b (hinv b hb))
  · exact .inr (h.bad b (hinv b hb))

/-- A block that was marked is bad. -/
theorem markbad_failedBad (hok : (markbad faults dev block).2 = false)
    (h : ∀ b, .failed b ∈ dev.log → b = block ∨ dev.bad b = true) :
    FailedBad (markbad faults dev block).1 := by
  intro b hb
  have hold : .failed b ∈ dev.log := by
    cases hb with
    | tail _ hb => exact hb
  rw [markbad] at hok ⊢
  simp only at hok ⊢
  by_cases heq : b = block
  · rw [heq, Function.update_self, hok]
    rfl
  · rw [Function.update_of_ne heq]
    exact (h b hold).resolve_left heq

end Marks

section Sync
variable (faults : Faults) (nand : NandInfo) {dev : FaultyDev}

/-- A synchronisation marks only blocks it failed to erase or to write. -/
theorem syncLoop_logged (n : Nat) (hinv : FailedBad dev) :
    Logged False dev (syncLoop faults nand n dev).1 ∧
      (0 ≤ (syncLoop faults nand n dev).2 →
        FailedBad (syncLoop faults nand n dev).1 ∧ (syncLoop faults nand n dev).1.wnand = false) := by
  have hnospc : ¬0 ≤ - ENOSPC := by decide
  have hio : ¬0 ≤ - EIO := by decide
  fun_induction syncLoop faults nand n dev with
  | case1 dev => exact ⟨Logged.of_eq rfl, fun h => absurd h hnospc⟩
  | case2 n dev q hbad ih =>
      have hquery : Logged False dev (nextBlock q.1) := Logged.of_eq rfl
      obtain ⟨hlater, hend⟩ := ih hinv
      exact ⟨hquery.trans hlater, hend⟩
  | case3 n dev q hbad r herr m hm =>
      have hquery : Logged False dev q.1 := Logged.of_eq rfl
      have hwrite : Attempt q.1.wblock q.1 r := writeBlock_attempt faults nand q.1 q.1.wblock
      have hmark := hwrite.markbad faults herr
      rw [← hwrite.wblock] at hmark
      exact ⟨hquery.trans hmark, fun h => absurd h hio⟩
  | case4 n dev q hbad r herr m hm ih =>
      have hquery : Logged False dev q.1 := Logged.of_eq rfl
      have hwrite : Attempt q.1.wblock q.1 r := writeBlock_attempt faults nand q.1 q.1.wblock
      have hmark := hwrite.markbad faults herr
      have hfailed := hwrite.failed hinv
      rw [← hwrite.wblock] at hmark hfailed
      have hnext : Logged False m.1 (nextBlock m.1) := Logged.of_eq rfl
      obtain ⟨hlater, hend⟩ := ih (markbad_failedBad faults (Bool.eq_false_iff.mpr hm) hfailed)
      exact ⟨hquery.trans (hmark.trans (hnext.trans hlater)), hend⟩
  | case5 n dev q hbad r herr =>
      have hquery : Logged False dev q.1 := Logged.of_eq rfl
      have hwrite := writeBlock_attempt faults nand q.1 q.1.wblock
      have hempty : Logged False r.1 (emptyCache r.1) := Logged.of_eq rfl
      exact ⟨hquery.trans (hwrite.logged.trans hempty), fun _ =>
        ⟨hwrite.failedBad (Bool.eq_false_iff.mpr herr) hinv, rfl⟩⟩

theorem dataDoSync_logged (hinv : FailedBad dev) :
    Logged False dev (dataDoSync faults nand dev).1 ∧
      (0 ≤ (dataDoSync faults nand dev).2 →
        FailedBad (dataDoSync faults nand dev).1 ∧
          (dataDoSync faults nand dev).1.wnand = false) := by
  have hpage : Logged False dev (invalidatePage dev) := Logged.of_eq rfl
  rw [dataDoSync]
  cases hw : (invalidatePage dev).wnand with
  | true =>
      obtain ⟨hlog, hend⟩ :=
        @syncLoop_logged faults nand (invalidatePage dev) (nand.nblocks - dev.wblock) hinv
      rw [if_pos rfl]
      exact ⟨hpage.trans hlog, hend⟩
  | false =>
      rw [if_neg Bool.false_ne_true]
      exact ⟨hpage, fun _ => ⟨hinv, hw⟩⟩

end Sync

section Rounds
variable (faults : Faults) (nand : NandInfo) {dev : FaultyDev}

theorem frontPages_eq_zero (boffs : Nat) : frontPages nand boffs = 0 ↔ boffs = 0 := by
  have hpos := nand.writesz_pos
  rw [frontPages, Nat.div_eq_zero_iff]
  omega

/-- What is known of the blocks that failed and of `err` once a block is dealt with. -/
def Cached.Sound (dev : FaultyDev) : Cached → Prop
  | .ready err => err = false ∧ FailedBad dev
  | .taken => FailedBad dev
  | .lost => FailedBad dev ∧ dev.wnand = false
  | .failed _ => True

theorem loseBlock_logged {stale : Prop} {dev' : FaultyDev} {block : Nat}
    (hlog : Logged stale dev (markbad faults dev' block).1)
    (hinv : ∀ b, .failed b ∈ dev'.log → b = block ∨ dev'.bad b = true) (hw : dev'.wnand = false) :
    Logged stale dev (loseBlock faults dev' block).1 ∧
      (loseBlock faults dev' block).2.Sound (loseBlock faults dev' block).1 := by
  rw [loseBlock]
  cases hm : (markbad faults dev' block).2 with
  | true =>
      rw [if_pos rfl]
      exact ⟨hlog, trivial⟩
  | false =>
      rw [if_neg Bool.false_ne_true]
      exact ⟨hlog, markbad_failedBad faults hm hinv, hw⟩

/-- With an error from before and nothing to read in front of the data a block is
marked though no operation failed on it. -/
theorem loadBlock_logged {err : Bool} {block boffs len : Nat} (hinv : FailedBad dev)
    (hgood : err = true → dev.bad block = false) (hw : dev.wnand = false) :
    Logged (err = true ∧ boffs = 0) dev (loadBlock faults nand dev err block boffs len).1 ∧
      (loadBlock faults nand dev err block boffs len).2.Sound
        (loadBlock faults nand dev err block boffs len).1 := by
  rw [← frontPages_eq_zero nand boffs]
  by_cases hstale : err = true ∧ frontPages nand boffs = 0
  · have hread : readBlock faults nand dev err block boffs len = (dev, true) := by
      rw [readBlock, if_pos hstale.2, if_pos hstale.1, hstale.2]
      rfl
    have hnot : Event.failed block ∉ dev.log := fun hmem =>
      Bool.false_ne_true ((hgood hstale.1).symm.trans (hinv block hmem))
    have hlog : Logged (err = true ∧ frontPages nand boffs = 0) dev (markbad faults dev block).1 :=
      ⟨⟨[.markbad block], rfl⟩, fun _ => ⟨fun hj => absurd hj.1 hnot, fun h => absurd hstale h⟩⟩
    rw [loadBlock, hread, if_pos rfl]
    exact loseBlock_logged faults hlog (fun b hb => .inr (hinv b hb)) hw
  · have hread := readBlock_attempt faults nand dev block len hstale
    have hfalse : False ↔ err = true ∧ frontPages nand boffs = 0 := ⟨False.elim, hstale⟩
    rw [loadBlock]
    generalize readBlock faults nand dev err block boffs len = r at *
    cases herr : r.2 with
    | true =>
        rw [if_pos rfl]
        exact loseBlock_logged faults ((hread.markbad faults herr).congr hfalse)
          (hread.failed hinv) (hread.wnand.trans hw)
    | false =>
        have hcached : Logged False r.1 (setCached r.1 block) := Logged.of_eq rfl
        rw [if_neg Bool.false_ne_true]
        exact ⟨(hread.logged.trans hcached).congr hfalse, rfl, hread.failedBad herr hinv⟩

theorem cacheBlock_logged {err : Bool} {block boffs len : Nat} (hinv : FailedBad dev)
    (hgood : dev.bad block = false) (herr : err = true → dev.wnand = false) :
    Logged (err = true ∧ boffs = 0) dev (cacheBlock faults nand dev err block boffs len).1 ∧
      (cacheBlock faults nand dev err block boffs len).2.Sound
        (cacheBlock faults nand dev err block boffs len).1 := by
  -- there is no error from before while a block is cached
  have hok (hw : dev.wnand = true) : err = false := Bool.eq_false_iff.mpr fun h =>
    Bool.false_ne_true ((herr h).symm.trans hw)
  have hfalse (hw : dev.wnand = true) : False ↔ err = true ∧ boffs = 0 :=
    ⟨False.elim, fun h => Bool.false_ne_true ((hok hw).symm.trans h.1)⟩
  obtain ⟨hsync, hend⟩ := dataDoSync_logged faults nand hinv
  fun_cases cacheBlock faults nand dev err block boffs len with
  | case1 hsame => exact ⟨(Logged.of_eq rfl).congr (hfalse hsame.1), hok hsame.1, hinv⟩
  | case2 hother hw r hfail => exact ⟨hsync.congr (hfalse hw), trivial⟩
  | case3 hother hw r hret htaken =>
      exact ⟨hsync.congr (hfalse hw), (hend (Int.not_lt.mp hret)).1⟩
  | case4 hother hw r hret hnot =>
      obtain ⟨hinv₁, hw₁⟩ := hend (Int.not_lt.mp hret)
      obtain ⟨hload, hsound⟩ := @loadBlock_logged faults nand r.1 false block boffs len hinv₁
        (fun h => absurd h Bool.false_ne_true) hw₁
      have hnever : (false = true ∧ boffs = 0) ↔ err = true ∧ boffs = 0 :=
        ⟨fun h => absurd h.1 Bool.false_ne_true, fun h => absurd h ((hfalse hw).not.mp id)⟩
      exact ⟨hsync.trans (hload.congr hnever), hsound⟩
  | case5 hother hw =>
      exact loadBlock_logged faults nand hinv (fun _ => hgood) (Bool.eq_false_iff.mpr hw)

/-- The round meets a good block with the error of an earlier round, and there is
nothing to read in front of its data. -/
def Round.Stale (r : Round) : Prop :=
  r.block < nand.nblocks ∧ r.data ≠ [] ∧ (isbad faults r.dev r.block).2 = false ∧
    r.err = true ∧ r.boffs = 0

/-- The blocks that failed in this call are bad, and with an error the cache is empty. -/
structure Round.Inv (r : Round) : Prop where
  failed : FailedBad r.dev
  err : r.err = true → r.dev.wnand = false

def Next.device : Next → FaultyDev
  | .round r => r.dev
  | .done dev _ => dev

def Next.Inv : Next → Prop
  | .round r => r.Inv
  | .done _ _ => True

/-- A good block gets cached or marked. -/
theorem goodBlock_logged {r : Round} (hinv : r.Inv) (hgo : r.block < nand.nblocks ∧ r.data ≠ [])
    (hgood : (isbad faults r.dev r.block).2 = false) :
    Logged (r.Stale faults nand) r.dev (cacheBlock faults nand (isbad faults r.dev r.block).1 r.err
        r.block r.boffs r.data.length).1 ∧
      (cacheBlock faults nand (isbad faults r.dev r.block).1 r.err r.block r.boffs
        r.data.length).2.Sound (cacheBlock faults nand (isbad faults r.dev r.block).1 r.err r.block
          r.boffs r.data.length).1 := by
  have hquery : Logged False r.dev (isbad faults r.dev r.block).1 := Logged.of_eq rfl
  have hstale : r.err = true ∧ r.boffs = 0 ↔ r.Stale faults nand :=
    ⟨fun h => ⟨hgo.1, hgo.2, hgood, h⟩, fun h => h.2.2.2⟩
  obtain ⟨hlog, hsound⟩ := @cacheBlock_logged faults nand (isbad faults r.dev r.block).1 r.err
    r.block r.boffs r.data.length hinv.failed (Bool.or_eq_false_iff.mp hgood).1 hinv.err
  exact ⟨hquery.trans (hlog.congr hstale), hsound⟩

/-- A round marks a block that did not fail just when it is stale. -/
theorem writeRound_logged {r : Round} (hinv : r.Inv) :
    Logged (r.Stale faults nand) r.dev (writeRound faults nand r).device ∧
      (writeRound faults nand r).Inv := by
  fun_cases writeRound faults nand r with
  | case1 hgo q hbad =>
      have hnot : False ↔ r.Stale faults nand :=
        ⟨False.elim, fun h => Bool.false_ne_true (h.2.2.1.symm.trans hbad)⟩
      have hquery : Logged False r.dev q.1 := Logged.of_eq rfl
      exact ⟨hquery.congr hnot, hinv.failed, hinv.err⟩
  | case2 hgo q hgood c err hc =>
      obtain ⟨hlog, -⟩ := goodBlock_logged faults nand hinv hgo (Bool.eq_false_iff.mpr hgood)
      exact ⟨hlog, trivial⟩
  | case3 hgo q hgood c hc =>
      obtain ⟨hlog, hsound⟩ := goodBlock_logged faults nand hinv hgo (Bool.eq_false_iff.mpr hgood)
      have hinv' : Cached.Sound c.1 .taken := hc ▸ hsound
      exact ⟨hlog, hinv', fun h => absurd h Bool.false_ne_true⟩
  | case4 hgo q hgood c hc =>
      obtain ⟨hlog, hsound⟩ := goodBlock_logged faults nand hinv hgo (Bool.eq_false_iff.mpr hgood)
      have hinv' : Cached.Sound c.1 .lost := hc ▸ hsound
      exact ⟨hlog, hinv'.1, fun _ => hinv'.2⟩
  | case5 hgo q hgood c err hc size =>
      obtain ⟨hlog, hsound⟩ := goodBlock_logged faults nand hinv hgo (Bool.eq_false_iff.mpr hgood)
      have hinv' : Cached.Sound c.1 (.ready err) := hc ▸ hsound
      have hcopy : Logged False c.1 (copyData c.1 r.boffs (r.data.take size)) := Logged.of_eq rfl
      exact ⟨(hlog.seq hcopy).congr (or_iff_left id), hinv'.2,
        fun h => absurd (hinv'.1.symm.trans h) Bool.false_ne_true⟩
  | case6 hstop =>
      have hnot : False ↔ r.Stale faults nand := ⟨False.elim, fun h => hstop ⟨h.1, h.2.1⟩⟩
      have hsame : Logged False r.dev r.dev := Logged.of_eq rfl
      exact ⟨hsame.congr hnot, trivial⟩

/-- The rounds of a call. -/
def writeRounds : Nat → Round → List Round
  | 0, _ => []
  | fuel + 1, r =>
    r :: match writeRound faults nand r with
      | .round r => writeRounds fuel r
      | .done _ _ => []

theorem writeLoop_logged (fuel : Nat) {r : Round} (hinv : r.Inv) :
    Logged (∃ x ∈ writeRounds faults nand fuel r, x.Stale faults nand) r.dev
      (writeLoop faults nand fuel r).1 := by
  induction fuel generalizing r with
  | zero =>
      have hnone : False ↔ ∃ x ∈ writeRounds faults nand 0 r, x.Stale faults nand :=
        ⟨False.elim, fun ⟨_, hx, _⟩ => List.not_mem_nil hx⟩
      exact (Logged.of_eq rfl).congr hnone
  | succ fuel ih =>
      obtain ⟨hlog, hnext⟩ := writeRound_logged faults nand hinv
      rw [writeLoop, writeRounds]
      cases hround : writeRound faults nand r with
      | round r' =>
          rw [hround] at hlog hnext
          exact (hlog.seq (ih hnext)).congr (List.exists_mem_cons_iff _ _ _).symm
      | done dev ret =>
          rw [hround] at hlog
          have hone : r.Stale faults nand ↔ ∃ x ∈ [r], x.Stale faults nand := by
            simp only [List.mem_singleton, exists_eq_left]
          exact hlog.congr hone

end Rounds

section Calls
variable (faults : Faults) (nand : NandInfo)

inductive Call
  | write (offs : Nat) (data : List UInt8)
  | sync

def Call.run (dev : FaultyDev) : Call → FaultyDev
  | .write offs data => (dataWrite faults nand dev offs data).1
  | .sync => (dataSync faults nand dev).1

/-- The rounds of `data_write` in a call. -/
def Call.rounds (dev : FaultyDev) : Call → List Round
  | .write offs data =>
    if nand.size ≤ offs ∨ data.take (nand.size - offs) = [] then []
    else
      writeRounds faults nand nand.nblocks
        (firstRound nand dev offs (data.take (nand.size - offs)))
  | .sync => []

/-- The logs of the calls of a history, each with the rounds of its call. -/
def history : FaultyDev → List Call → List (List Event × List Round)
  | _, [] => []
  | dev, call :: calls =>
    let dev' := call.run faults nand dev
    (dev'.log, call.rounds faults nand dev) :: history dev' calls

theorem Call.justified_iff (dev : FaultyDev) (call : Call) :
    Justified (call.run faults nand dev).log ↔
      ∀ r ∈ call.rounds faults nand dev, ¬r.Stale faults nand := by
  have hempty : FailedBad (clearLog dev) := fun _ h => absurd h List.not_mem_nil
  cases call with
  | sync =>
      obtain ⟨hlog, -⟩ := dataDoSync_logged faults nand hempty
      exact ⟨fun _ _ h => absurd h List.not_mem_nil, fun _ => (hlog.justified trivial).mpr id⟩
  | write offs data =>
      rw [Call.run, Call.rounds, dataWrite]
      by_cases hend : nand.size ≤ offs
      · rw [if_pos hend, if_pos (.inl hend)]
        exact ⟨fun _ _ h => absurd h List.not_mem_nil, fun _ => trivial⟩
      · rw [if_neg hend]
        by_cases hnone : data.take (nand.size - offs) = []
        · rw [if_pos hnone, if_pos (.inr hnone)]
          exact ⟨fun _ _ h => absurd h List.not_mem_nil, fun _ => trivial⟩
        · rw [if_neg hnone, if_neg (not_or.mpr ⟨hend, hnone⟩)]
          have hlog := @writeLoop_logged faults nand nand.nblocks
            (firstRound nand dev offs (data.take (nand.size - offs)))
            ⟨hempty, fun h => absurd h Bool.false_ne_true⟩
          rw [hlog.justified trivial]
          simp only [not_exists, not_and]

/-- The second operation fails if it is a read. -/
def oneReadFault : Faults where
  isbadFails := fun _ => false
  readFails := fun time => time == 1
  eraseFails := fun _ => false
  writeFails := fun _ => false
  markFails := fun _ => false
  junk := fun _ _ => 0
  marker := fun _ => false

def freshDev : FaultyDev :=
  { dataInit (fun _ => 0xff) (fun _ => 0) (fun _ => 0) with
    bad := fun _ => false
    time := 0
    log := [] }

end Calls

end Plo.Devices.Nand.Faulty
