import Plo.Devices.NandContent
import Plo.Devices.NandFaults

/-!
What is written is read back although blocks fail while it is written. The cached
block goes to the next block that takes it, and the blocks passed on the way are
bad from then on; so the good blocks hold the same data in the same order.
-/
namespace Plo.Devices.Nand.Faulty

/-- Reads succeed, and a block that failed can be marked. -/
structure Recoverable (faults : Faults) : Prop where
  isbad : ∀ time, faults.isbadFails time = false
  read : ∀ time, faults.readFails time = false
  mark : ∀ time, faults.markFails time = false

theorem Recoverable.isbad_eq {faults : Faults} (h : Recoverable faults) (dev : FaultyDev)
    (block : Nat) : (Faulty.isbad faults dev block).2 = dev.bad block := by
  rw [Faulty.isbad, h.isbad, Bool.or_false]

theorem Recoverable.markbad_eq {faults : Faults} (h : Recoverable faults) (dev : FaultyDev)
    (block : Nat) : (markbad faults dev block).1.bad block = true := by
  rw [markbad, h.mark]
  exact Function.update_self _ _ _

section Block
variable (faults : Faults) (nand : NandInfo)

/-- Nothing but a block of the flash and its marker has changed. -/
structure Frame (block : Nat) (dev dev' : FaultyDev) : Prop where
  chip : ∀ a, ¬(block * nand.erasesz ≤ a ∧ a < block * nand.erasesz + nand.erasesz) →
    dev'.chip a = dev.chip a
  bad : ∀ b, b ≠ block → dev'.bad b = dev.bad b
  block : dev'.block = dev.block
  rnand : dev'.rnand = dev.rnand
  wblock : dev'.wblock = dev.wblock

variable {nand} {block : Nat} {dev dev₁ dev₂ : FaultyDev}

theorem Frame.refl (dev : FaultyDev) : Frame nand block dev dev :=
  ⟨fun _ _ => rfl, fun _ _ => rfl, rfl, rfl, rfl⟩

theorem Frame.trans (h₁ : Frame nand block dev dev₁) (h₂ : Frame nand block dev₁ dev₂) :
    Frame nand block dev dev₂ where
  chip := fun a ha => (h₂.chip a ha).trans (h₁.chip a ha)
  bad := fun b hb => (h₂.bad b hb).trans (h₁.bad b hb)
  block := h₂.block.trans h₁.block
  rnand := h₂.rnand.trans h₁.rnand
  wblock := h₂.wblock.trans h₁.wblock

variable (nand)

theorem isbad_frame (dev : FaultyDev) (b : Nat) : Frame nand block dev (isbad faults dev b).1 :=
  ⟨fun _ _ => rfl, fun _ _ => rfl, rfl, rfl, rfl⟩

theorem markbad_frame (dev : FaultyDev) (block : Nat) :
    Frame nand block dev (markbad faults dev block).1 :=
  ⟨fun _ _ => rfl, fun _ hb => Function.update_of_ne hb _ _, rfl, rfl, rfl⟩

theorem erase_frame (dev : FaultyDev) (block : Nat) :
    Frame nand block dev (erase faults nand dev block).1 := by
  rw [erase]
  split
  · exact ⟨fun _ ha => patch_outside ha, fun _ hb => Function.update_of_ne hb _ _, rfl, rfl, rfl⟩
  · exact ⟨fun _ ha => Nor.erase_outside _ _ ha, fun _ _ => rfl, rfl, rfl, rfl⟩

/-- A page lies in its block. -/
theorem page_in_block {i a : Nat} (hi : i < nand.npages)
    (ha : ¬(block * nand.erasesz ≤ a ∧ a < block * nand.erasesz + nand.erasesz)) :
    ¬((block * nand.npages + i) * nand.writesz ≤ a ∧
      a < (block * nand.npages + i) * nand.writesz + nand.writesz) := by
  have hpage := nand.page_addr block i
  have hend := Nat.mul_le_mul_right nand.writesz (Nat.succ_le_of_lt hi)
  rw [nand.erasesz_eq, Nat.succ_mul] at hend
  omega

theorem write_frame (dev : FaultyDev) (block : Nat) {i : Nat} (hi : i < nand.npages) :
    Frame nand block dev (write faults nand dev block i).1 := by
  rw [write]
  split
  · exact ⟨fun _ ha => patch_outside (page_in_block nand hi ha),
      fun _ hb => Function.update_of_ne hb _ _, rfl, rfl, rfl⟩
  · exact ⟨fun _ ha => Nor.program_outside dev.chip (fun k => dev.block (i * nand.writesz + k)) _
      (page_in_block nand hi ha), fun _ _ => rfl, rfl, rfl, rfl⟩

theorem writePages_frame (dev : FaultyDev) (block : Nat) {i n : Nat} (hn : i + n ≤ nand.npages) :
    Frame nand block dev (writePages faults nand dev block i n).1 := by
  induction n generalizing dev i with
  | zero => exact Frame.refl dev
  | succ n ih =>
      have hi : i < nand.npages := by omega
      have hpage := write_frame faults nand dev block hi
      rw [writePages]
      split
      · exact hpage
      · exact hpage.trans (ih _ (by omega))

theorem writeBlock_frame (dev : FaultyDev) (block : Nat) :
    Frame nand block dev (writeBlock faults nand dev block).1 := by
  have herase := erase_frame faults nand dev block
  rw [writeBlock]
  split
  · exact herase
  · exact herase.trans (writePages_frame faults nand _ block (Nat.le_of_eq (Nat.zero_add _)))

theorem write_ok {i : Nat} (hok : (write faults nand dev block i).2 = false) :
    (write faults nand dev block i).1.chip =
        Nor.program dev.chip (block * nand.erasesz + i * nand.writesz) nand.writesz
          (fun k => dev.block (i * nand.writesz + k)) ∧
      (write faults nand dev block i).1.block = dev.block ∧
      (write faults nand dev block i).1.bad = dev.bad := by
  rw [write] at hok ⊢
  split at hok
  · exact absurd hok.symm Bool.false_ne_true
  · next hfails =>
    rw [if_neg hfails, ← nand.page_addr]
    exact ⟨rfl, rfl, rfl⟩

/-- Pages written without a failure hold what the cache holds. -/
theorem writePages_ok {mem : Nat → UInt8} {i n : Nat}
    (hchip : dev.chip = Nor.programPages nand.writesz (block * nand.erasesz) dev.block i mem)
    (hok : (writePages faults nand dev block i n).2 = false) :
    (writePages faults nand dev block i n).1.chip =
        Nor.programPages nand.writesz (block * nand.erasesz) dev.block (i + n) mem ∧
      (writePages faults nand dev block i n).1.bad = dev.bad := by
  fun_induction writePages faults nand dev block i n with
  | case1 dev i => exact ⟨hchip, rfl⟩
  | case2 dev i n r herr => exact absurd (hok.symm.trans herr) Bool.false_ne_true
  | case3 dev i n r herr ih =>
      obtain ⟨hpage, hblock, hbad⟩ := write_ok faults nand (Bool.eq_false_iff.mpr herr)
      have hnext : r.1.chip =
          Nor.programPages nand.writesz (block * nand.erasesz) r.1.block (i + 1) mem := by
        rw [Nor.programPages_succ, hblock, ← hchip]
        exact hpage
      obtain ⟨hlater, hbad'⟩ := ih hnext hok
      rw [hblock, Nat.add_right_comm] at hlater
      exact ⟨hlater, hbad'.trans hbad⟩

theorem erase_ok (hok : (erase faults nand dev block).2 = false) :
    (erase faults nand dev block).1.chip =
        Nor.erase dev.chip (block * nand.erasesz) nand.erasesz ∧
      (erase faults nand dev block).1.block = dev.block ∧
      (erase faults nand dev block).1.bad = dev.bad := by
  rw [erase] at hok ⊢
  split at hok
  · exact absurd hok.symm Bool.false_ne_true
  · next hfails =>
    rw [if_neg hfails]
    exact ⟨rfl, rfl, rfl⟩

theorem writeBlock_ok (hok : (writeBlock faults nand dev block).2 = false) :
    (writeBlock faults nand dev block).1.chip =
        patch dev.chip (block * nand.erasesz) nand.erasesz dev.block ∧
      (writeBlock faults nand dev block).1.bad = dev.bad := by
  fun_cases writeBlock faults nand dev block with
  | case1 r herr =>
      rw [writeBlock, if_pos herr] at hok
      exact absurd (hok.symm.trans herr) Bool.false_ne_true
  | case2 r herr =>
      rw [writeBlock, if_neg herr] at hok
      obtain ⟨hchip, hblock, hbad⟩ := erase_ok faults nand (Bool.eq_false_iff.mpr herr)
      have hstart : r.1.chip = Nor.programPages nand.writesz (block * nand.erasesz) r.1.block 0
          (Nor.erase dev.chip (block * nand.erasesz) nand.erasesz) := hchip
      obtain ⟨hpages, hbad'⟩ := writePages_ok faults nand hstart hok
      rw [Nat.zero_add, hblock] at hpages
      have hall := Nor.programPages_erase dev.chip dev.block (block * nand.erasesz) nand.writesz_dvd
      exact ⟨hpages.trans hall, hbad'.trans hbad⟩

end Block

section Sync
variable {faults : Faults} (nand : NandInfo)

/-- The cached block went to the block at which `wblock` is now, and the blocks
passed on the way are bad. -/
structure Relocated (dev dev' : FaultyDev) : Prop where
  le : dev.wblock ≤ dev'.wblock
  lt : dev'.wblock < nand.nblocks
  passed : ∀ b, dev.wblock ≤ b → b < dev'.wblock → dev'.bad b = true
  good : dev'.bad dev'.wblock = false
  bad : ∀ b, b < dev.wblock ∨ dev'.wblock ≤ b → dev'.bad b = dev.bad b
  chip : ∀ a, a < dev.wblock * nand.erasesz ∨ (dev'.wblock + 1) * nand.erasesz ≤ a →
    dev'.chip a = dev.chip a
  stored : ∀ k, k < nand.erasesz → dev'.chip (dev'.wblock * nand.erasesz + k) = dev.block k
  wnand : dev'.wnand = false
  rnand : dev.rnand = false → dev'.rnand = false

variable {nand} {dev dev₁ dev' : FaultyDev}

/-- The block was passed, and the data went to a later one. -/
theorem Relocated.pass (h : Relocated nand (nextBlock dev₁) dev')
    (hframe : Frame nand dev.wblock dev dev₁) (hbad : dev₁.bad dev.wblock = true) :
    Relocated nand dev dev' := by
  have hnext : (nextBlock dev₁).wblock = dev.wblock + 1 := congrArg (· + 1) hframe.wblock
  have hle : dev.wblock + 1 ≤ dev'.wblock := hnext ▸ h.le
  have hend := Nat.mul_le_mul_right nand.erasesz hle
  have hsucc : (dev.wblock + 1) * nand.erasesz = dev.wblock * nand.erasesz + nand.erasesz :=
    Nat.succ_mul _ _
  have hsucc' : (dev'.wblock + 1) * nand.erasesz = dev'.wblock * nand.erasesz + nand.erasesz :=
    Nat.succ_mul _ _
  refine ⟨by omega, h.lt, fun b hb hlt => ?_, h.good, fun b hb => ?_, fun a ha => ?_,
    fun k hk => ?_, h.wnand, fun hr => h.rnand (hframe.rnand.trans hr)⟩
  · by_cases heq : b = dev.wblock
    · rw [h.bad b (.inl (by omega)), heq]
      exact hbad
    · exact h.passed b (by omega) hlt
  · rw [h.bad b (by omega)]
    exact hframe.bad b (by omega)
  · rw [h.chip a (by rw [hnext]; omega)]
    exact hframe.chip a (by omega)
  · rw [h.stored k hk]
    exact congrFun hframe.block k

theorem syncLoop_relocated (h : Recoverable faults) {n : Nat} (hn : n = nand.nblocks - dev.wblock)
    (hok : 0 ≤ (syncLoop faults nand n dev).2) :
    Relocated nand dev (syncLoop faults nand n dev).1 := by
  have hnospc : ¬0 ≤ - ENOSPC := by decide
  fun_induction syncLoop faults nand n dev with
  | case1 dev => exact absurd hok hnospc
  | case2 n dev q hbad ih =>
      have hnext : (nextBlock q.1).wblock = dev.wblock + 1 := rfl
      refine (ih (by rw [hnext]; omega) hok).pass (isbad_frame faults nand dev _) ?_
      exact (h.isbad_eq dev dev.wblock).symm.trans hbad
  | case3 n dev q hbad r herr m hm => exact absurd ((h.mark _).symm.trans hm) Bool.false_ne_true
  | case4 n dev q hbad r herr m hm ih =>
      have hwrite : Frame nand dev.wblock dev r.1 :=
        (isbad_frame faults nand dev _).trans (writeBlock_frame faults nand q.1 dev.wblock)
      have hframe : Frame nand dev.wblock dev m.1 :=
        hwrite.trans (hwrite.wblock ▸ markbad_frame faults nand r.1 r.1.wblock)
      have hnext : (nextBlock m.1).wblock = dev.wblock + 1 := congrArg (· + 1) hframe.wblock
      have hmarked : m.1.bad r.1.wblock = true := h.markbad_eq r.1 r.1.wblock
      rw [hwrite.wblock] at hmarked
      exact (ih (by rw [hnext]; omega) hok).pass hframe hmarked
  | case5 n dev q hbad r herr =>
      have hframe : Frame nand dev.wblock dev r.1 :=
        (isbad_frame faults nand dev _).trans (writeBlock_frame faults nand q.1 dev.wblock)
      have hblock : (emptyCache r.1).wblock = dev.wblock := hframe.wblock
      have hgood : dev.bad dev.wblock = false :=
        (h.isbad_eq dev dev.wblock).symm.trans (Bool.eq_false_iff.mpr hbad)
      obtain ⟨hchip, hsame⟩ := writeBlock_ok faults nand (Bool.eq_false_iff.mpr herr)
      have hsucc : (dev.wblock + 1) * nand.erasesz = dev.wblock * nand.erasesz + nand.erasesz :=
        Nat.succ_mul _ _
      refine ⟨Nat.le_of_eq hblock.symm, ?_, fun b hb hlt => ?_, ?_, fun b _ => congrFun hsame b,
        fun a ha => ?_, fun k hk => ?_, rfl, hframe.rnand.trans⟩
      · rw [hblock]
        omega
      · rw [hblock] at hlt
        exact absurd hlt (Nat.not_lt.mpr hb)
      · rw [hblock]
        exact (congrFun hsame dev.wblock).trans hgood
      · rw [hblock] at ha
        exact hframe.chip a (by omega)
      · rw [hblock]
        exact (congrFun hchip _).trans (patch_add hk)

theorem dataDoSync_relocated (h : Recoverable faults) (hw : dev.wnand = true)
    (hok : 0 ≤ (dataDoSync faults nand dev).2) :
    Relocated nand dev (dataDoSync faults nand dev).1 ∧
      (dataDoSync faults nand dev).1.rnand = false := by
  have hcached : (invalidatePage dev).wnand = true := hw
  rw [dataDoSync, hcached, if_pos rfl] at hok ⊢
  have hloop := syncLoop_relocated h rfl hok
  exact ⟨{ hloop with rnand := fun _ => hloop.rnand rfl }, hloop.rnand rfl⟩

end Sync

section Delivery
variable {faults : Faults} (nand : NandInfo)

/-- The good blocks as they are now. -/
def withBad (dev : FaultyDev) : NandInfo := { nand with bad := dev.bad }

/-- From the state `dev` on the blocks before `block` stay as they are, and in `dev'`
the good blocks from there on hold the data from their byte `boffs` on. -/
structure Delivers (dev dev' : FaultyDev) (block boffs : Nat) (data : List UInt8) : Prop where
  chip : ∀ a, a < block * nand.erasesz → dev'.chip a = dev.chip a
  bad : ∀ b, b < block → dev'.bad b = dev.bad b
  size : data.length ≤ capacity (withBad nand dev') block - boffs
  data : gather (place (withBad nand dev') block) dev'.chip boffs data.length = data

variable {nand} {dev dev₁ dev' : FaultyDev} {block boffs : Nat} {data : List UInt8}

theorem Delivers.nil (hchip : ∀ a, a < block * nand.erasesz → dev'.chip a = dev.chip a)
    (hbad : ∀ b, b < block → dev'.bad b = dev.bad b) : Delivers nand dev dev' block boffs [] :=
  ⟨hchip, hbad, Nat.zero_le _, rfl⟩

/-- A bad block may come before. -/
theorem Delivers.skip (h : Delivers nand dev dev' (block + 1) boffs data)
    (hblock : block < nand.nblocks) (hbad : dev.bad block = true) :
    Delivers nand dev dev' block boffs data := by
  have hle : block * nand.erasesz ≤ (block + 1) * nand.erasesz :=
    Nat.mul_le_mul_right _ (Nat.le_succ block)
  have hbad' : (withBad nand dev').bad block = true := (h.bad block (Nat.lt_succ_self _)).trans hbad
  refine ⟨fun a ha => h.chip a (by omega), fun b hb => h.bad b (by omega), ?_, ?_⟩
  · rw [@capacity_skip (withBad nand dev') block hblock hbad']
    exact h.size
  · rw [gather_congr fun k _ => @place_skip (withBad nand dev') block hblock hbad' (boffs + k)]
    exact h.data

theorem Delivers.skips {first : Nat} (h : Delivers nand dev dev' block boffs data)
    (hle : first ≤ block) (hblock : block ≤ nand.nblocks)
    (hbad : ∀ b, first ≤ b → b < block → dev.bad b = true) :
    Delivers nand dev dev' first boffs data := by
  induction block, hle using Nat.le_induction with
  | base => exact h
  | succ block hle ih =>
      have hskip := h.skip (by omega) (hbad block hle (Nat.lt_succ_self _))
      exact ih hskip (by omega) fun b hb hlt => hbad b hb (by omega)

/-- A good block with its contents may come before. -/
theorem Delivers.cons (h : Delivers nand dev dev' (block + 1) 0 data)
    (hblock : block < nand.nblocks) (hgood : dev.bad block = false) :
    Delivers nand dev dev' block 0
      (slice dev.chip (block * nand.erasesz) nand.erasesz ++ data) := by
  have hsucc : (block + 1) * nand.erasesz = block * nand.erasesz + nand.erasesz := Nat.succ_mul _ _
  have hgood' : (withBad nand dev').bad block = false :=
    (h.bad block (Nat.lt_succ_self _)).trans hgood
  have hsize := h.size
  have hfirst : gather (place (withBad nand dev') block) dev'.chip 0 nand.erasesz =
      slice dev.chip (block * nand.erasesz) nand.erasesz := by
    rw [gather_eq_slice fun k hk => ?_, slice_eq_iff]
    · exact fun k hk => h.chip _ (by omega)
    · rw [Nat.zero_add]
      exact @place_first (withBad nand dev') block k hblock hgood' hk
  refine ⟨fun a ha => h.chip a (by omega), fun b hb => h.bad b (by omega), ?_, ?_⟩
  · rw [@capacity_next (withBad nand dev') block hblock hgood', List.length_append, length_slice]
    have herase : (withBad nand dev').erasesz = nand.erasesz := rfl
    omega
  · rw [List.length_append, length_slice, gather_add, hfirst]
    congr 1
    conv_rhs => rw [← h.data]
    refine gather_congr fun k hk => ?_
    rw [Nat.zero_add, Nat.zero_add]
    exact @place_next (withBad nand dev') block hblock hgood' k

/-- A part of what is there. -/
theorem Delivers.part {before after : List UInt8}
    (h : Delivers nand dev dev' block 0 (before ++ data ++ after))
    (hbefore : before.length = boffs) : Delivers nand dev dev' block boffs data := by
  have hsize := h.size
  have hdata := h.data
  rw [List.length_append, List.length_append] at hsize hdata
  rw [gather_add, gather_add, Nat.zero_add, hbefore] at hdata
  have hleft := (List.append_inj hdata (by simp [hbefore])).1
  have hmid := (List.append_inj hleft (by simp [hbefore])).2
  exact ⟨h.chip, h.bad, by omega, hmid⟩

theorem Delivers.rebase (h : Delivers nand dev₁ dev' block boffs data)
    (hchip : ∀ a, a < block * nand.erasesz → dev₁.chip a = dev.chip a)
    (hbad : ∀ b, b < block → dev₁.bad b = dev.bad b) : Delivers nand dev dev' block boffs data :=
  ⟨fun a ha => (h.chip a ha).trans (hchip a ha), fun b hb => (h.bad b hb).trans (hbad b hb),
    h.size, h.data⟩

theorem Delivers.of_same (h : Delivers nand dev₁ dev' block boffs data)
    (hchip : dev₁.chip = dev.chip) (hbad : dev₁.bad = dev.bad) :
    Delivers nand dev dev' block boffs data :=
  h.rebase (fun a _ => congrFun hchip a) fun b _ => congrFun hbad b

/-- The block that was cached comes before what is written after it. -/
theorem Relocated.delivers (h : Relocated nand dev dev₁)
    (hrest : Delivers nand dev₁ dev' block 0 data) (hlt : dev₁.wblock < block)
    (hblock : block ≤ nand.nblocks)
    (hbad : ∀ b, dev₁.wblock < b → b < block → dev₁.bad b = true) :
    Delivers nand dev dev' dev.wblock 0 (slice dev.block 0 nand.erasesz ++ data) := by
  have hnext : Delivers nand dev₁ dev' (dev₁.wblock + 1) 0 data :=
    hrest.skips hlt hblock fun b hb => hbad b hb
  have hstored : slice dev₁.chip (dev₁.wblock * nand.erasesz) nand.erasesz =
      slice dev.block 0 nand.erasesz := by
    rw [slice_eq_iff]
    intro k hk
    rw [h.stored k hk, Nat.zero_add]
  have hcons := hnext.cons h.lt h.good
  rw [hstored] at hcons
  exact (hcons.skips h.le (Nat.le_of_lt h.lt) h.passed).rebase (fun a ha => h.chip a (.inl ha))
    fun b hb => h.bad b (.inl hb)

end Delivery

section Load
variable {faults : Faults} {nand : NandInfo} {dev : FaultyDev} {block boffs : Nat}

theorem Recoverable.loadPages_eq (h : Recoverable faults) (dev : FaultyDev) (block i n : Nat) :
    loadPages faults nand dev block i n =
      ({ dev with
          toNandDev := Nand.loadPages nand dev.toNandDev block i n
          time := dev.time + n }, false) := by
  induction n generalizing dev i with
  | zero => rfl
  | succ n ih =>
      have hread : Faulty.read faults nand dev block i =
          ({ dev with
              block := patch dev.block (i * nand.writesz) nand.writesz
                fun k => dev.chip ((block * nand.npages + i) * nand.writesz + k)
              time := dev.time + 1 }, false) := by
        rw [Faulty.read, h.read]
        rfl
      have htime : dev.time + 1 + n = dev.time + (n + 1) := by omega
      rw [loadPages, hread, if_neg Bool.false_ne_true, ih]
      simp only [htime]
      rfl

/-- A block that is read becomes the cached one. -/
theorem Recoverable.loadBlock_eq (h : Recoverable faults) (dev : FaultyDev)
    (block boffs len : Nat) :
    ∃ dev', loadBlock faults nand dev false block boffs len = (dev', .ready false) ∧
      dev'.toNandDev = Nand.loadBlock nand dev.toNandDev block boffs len ∧ dev'.bad = dev.bad := by
  rw [loadBlock, readBlock]
  simp only [h.loadPages_eq, ite_self, Bool.false_eq_true, if_false]
  exact ⟨_, rfl, rfl, rfl⟩

/-- What a round stores in its block and what comes after it. -/
theorem Delivers.loaded {dev₁ dev₂ dev' : FaultyDev} {data : List UInt8} {n : Nat}
    (hboffs : boffs < nand.erasesz) (hchip : dev₂.chip = dev₁.chip) (hbad : dev₂.bad = dev₁.bad)
    (h : Delivers nand
      (copyData dev₂ boffs (data.take (min data.length (nand.erasesz - boffs)))) dev' block 0
      (slice (overlay dev₂.block boffs (data.take (min data.length (nand.erasesz - boffs)))) 0
          nand.erasesz ++
        (data.drop (min data.length (nand.erasesz - boffs))).take n)) :
    Delivers nand dev₁ dev' block boffs
      (data.take (min data.length (nand.erasesz - boffs) + n)) := by
  have htake : (data.take (min data.length (nand.erasesz - boffs))).length =
      min data.length (nand.erasesz - boffs) := List.length_take_of_le (Nat.min_le_left _ _)
  have hbefore : (slice dev₂.block 0 boffs).length = boffs := length_slice _ _ _
  have hfit : boffs + (data.take (min data.length (nand.erasesz - boffs))).length ≤
      nand.erasesz := by omega
  rw [slice_overlay_within _ _ hfit, htake] at h
  rw [List.take_add]
  by_cases hfull : nand.erasesz - boffs ≤ data.length
  · -- the data goes on after this block
    have hafter : nand.erasesz - (boffs + min data.length (nand.erasesz - boffs)) = 0 := by omega
    have hnone : slice dev₂.block (boffs + min data.length (nand.erasesz - boffs)) 0 = [] := rfl
    rw [hafter, hnone, List.append_nil, List.append_assoc,
      ← List.append_nil (slice dev₂.block 0 boffs ++ _)] at h
    exact (h.part hbefore).of_same hchip hbad
  · have hdrop : data.drop (min data.length (nand.erasesz - boffs)) = [] :=
      List.drop_eq_nil_of_le (by omega)
    rw [hdrop, List.take_nil, List.append_nil] at h
    rw [hdrop, List.take_nil, List.append_nil]
    exact (h.part hbefore).of_same hchip hbad

/-- How a round goes on when reads succeed: what became of the block cached before, and
from which state the new one is loaded. -/
def Cached.Outcome (nand : NandInfo) (block boffs len : Nat) (dev dev' : FaultyDev) : Cached → Prop
  | .ready err => err = false ∧ ∃ dev₁ : FaultyDev,
      (dev.wnand = true ∧ Relocated nand dev dev₁ ∧ dev₁.wblock < block ∨
        dev.wnand = false ∧ dev₁ = dev) ∧
      dev'.toNandDev = Nand.loadBlock nand dev₁.toNandDev block boffs len ∧ dev'.bad = dev₁.bad
  | .taken => dev.wnand = true ∧ Relocated nand dev dev' ∧ block ≤ dev'.wblock
  | .lost => False
  | .failed err => err < 0

theorem cacheBlock_outcome (h : Recoverable faults) {len : Nat}
    (hother : dev.wnand = true → dev.wblock < block) :
    (cacheBlock faults nand dev false block boffs len).2.Outcome nand block boffs len dev
      (cacheBlock faults nand dev false block boffs len).1 := by
  fun_cases cacheBlock faults nand dev false block boffs len with
  | case1 hsame => exact absurd hsame.2 (Nat.ne_of_gt (hother hsame.1))
  | case2 hnew hw r hfail => exact hfail
  | case3 hnew hw r hret htaken =>
      exact ⟨hw, (dataDoSync_relocated h hw (Int.not_lt.mp hret)).1, htaken.2⟩
  | case4 hnew hw r hret hnot =>
      obtain ⟨hsync, -⟩ := dataDoSync_relocated h hw (Int.not_lt.mp hret)
      have hbefore : r.1.wblock < block :=
        Nat.lt_of_not_le fun hle => hnot ⟨hother hw, hle⟩
      obtain ⟨dev', hload, hdev, hbad⟩ := h.loadBlock_eq r.1 block boffs len
      rw [hload]
      exact ⟨rfl, r.1, .inl ⟨hw, hsync, hbefore⟩, hdev, hbad⟩
  | case5 hnew hw =>
      obtain ⟨dev', hload, hdev, hbad⟩ := h.loadBlock_eq dev block boffs len
      rw [hload]
      exact ⟨rfl, dev, .inr ⟨Bool.eq_false_iff.mpr hw, rfl⟩, hdev, hbad⟩

end Load

section Rounds
variable {faults : Faults} (nand : NandInfo)

/-- A cached block lies before the block of the round, with only bad blocks between. -/
structure Round.Ready (r : Round) : Prop where
  err : r.err = false
  boffs : r.boffs < nand.erasesz
  block : r.block ≤ nand.nblocks
  cached : r.dev.wnand = true → r.boffs = 0 ∧ r.dev.wblock < r.block ∧
    ∀ b, r.dev.wblock < b → b < r.block → r.dev.bad b = true

/-- With the first `n` bytes left of the data, `dev'` holds what the round has cached
and what is still to be written. -/
def Round.Delivers (r : Round) (dev' : FaultyDev) (n : Nat) : Prop :=
  if r.dev.wnand then
    Faulty.Delivers nand r.dev dev' r.dev.wblock 0
      (slice r.dev.block 0 nand.erasesz ++ r.data.take n)
  else Faulty.Delivers nand r.dev dev' r.block r.boffs (r.data.take n)

/-- A round, with the part of the data it wrote, goes over to the next. -/
structure Passes (r r' : Round) : Prop where
  ready : r'.Ready nand
  block : r.block < r'.block
  ret : r.ret ≤ r'.ret
  left : r'.ret - r.ret + r'.data.length = r.data.length
  delivers : ∀ dev' n, r'.Delivers nand dev' n → r.Delivers nand dev' (r'.ret - r.ret + n)

variable {nand} {r : Round} {dev dev' : FaultyDev} {n : Nat}

theorem Round.delivers_cached (hw : r.dev.wnand = true) : r.Delivers nand dev' n ↔
    Faulty.Delivers nand r.dev dev' r.dev.wblock 0
      (slice r.dev.block 0 nand.erasesz ++ r.data.take n) := by
  rw [Round.Delivers, if_pos hw]

theorem Round.delivers_empty (hw : r.dev.wnand = false) : r.Delivers nand dev' n ↔
    Faulty.Delivers nand r.dev dev' r.block r.boffs (r.data.take n) := by
  rw [Round.Delivers, if_neg (Bool.eq_false_iff.mp hw)]

theorem Round.Delivers.cached (h : r.Delivers nand dev' n) (hw : r.dev.wnand = true) :
    Faulty.Delivers nand r.dev dev' r.dev.wblock 0
      (slice r.dev.block 0 nand.erasesz ++ r.data.take n) :=
  (Round.delivers_cached hw).mp h

theorem Round.Delivers.empty (h : r.Delivers nand dev' n) (hw : r.dev.wnand = false) :
    Faulty.Delivers nand r.dev dev' r.block r.boffs (r.data.take n) :=
  (Round.delivers_empty hw).mp h

theorem passes_skip (hr : r.Ready nand) (hblock : r.block < nand.nblocks)
    (hbad : r.dev.bad r.block = true) :
    Passes nand r { r with
      dev := (isbad faults r.dev r.block).1
      block := r.block + 1 } where
  ready :=
    { err := hr.err
      boffs := hr.boffs
      block := hblock
      cached := by
        intro hw
        obtain ⟨hboffs, hlt, hbetween⟩ := hr.cached hw
        refine ⟨hboffs, Nat.lt_succ_of_lt hlt, fun b hb hle => ?_⟩
        by_cases heq : b = r.block
        · rw [heq]
          exact hbad
        · exact hbetween b hb (Nat.lt_of_le_of_ne (Nat.le_of_lt_succ hle) heq) }
  block := Nat.lt_succ_self _
  ret := Nat.le_refl _
  left := by rw [Nat.sub_self, Nat.zero_add]
  delivers := by
    intro dev' n h
    rw [Nat.sub_self, Nat.zero_add]
    cases hw : r.dev.wnand with
    | true =>
        rw [Round.delivers_cached hw]
        exact (h.cached hw).of_same rfl rfl
    | false =>
        rw [Round.delivers_empty hw]
        exact ((h.empty hw).skip hblock hbad).of_same rfl rfl

theorem passes_taken (hr : r.Ready nand) (hw : r.dev.wnand = true)
    (h : Relocated nand (isbad faults r.dev r.block).1 dev) (hle : r.block ≤ dev.wblock) :
    Passes nand r { r with
      dev := dev
      err := false
      block := dev.wblock + 1 } where
  ready :=
    { err := rfl
      boffs := hr.boffs
      block := h.lt
      cached := fun hcached => absurd (h.wnand.symm.trans hcached) Bool.false_ne_true }
  block := Nat.lt_succ_of_le hle
  ret := Nat.le_refl _
  left := by rw [Nat.sub_self, Nat.zero_add]
  delivers := by
    intro dev' n hrest
    have hrest := hrest.empty h.wnand
    rw [Nat.sub_self, Nat.zero_add, Round.delivers_cached hw]
    simp only [(hr.cached hw).1] at hrest
    have hnone : ∀ b, dev.wblock < b → b < dev.wblock + 1 → dev.bad b = true :=
      fun b hb hlt => absurd hb (Nat.not_lt.mpr (Nat.le_of_lt_succ hlt))
    exact (h.delivers hrest (Nat.lt_succ_self _) h.lt hnone).of_same rfl rfl

theorem passes_ready {dev₁ dev₂ : FaultyDev} (hr : r.Ready nand) (hblock : r.block < nand.nblocks)
    (hbefore : r.dev.wnand = true ∧ Relocated nand (isbad faults r.dev r.block).1 dev₁ ∧
        dev₁.wblock < r.block ∨
      r.dev.wnand = false ∧ dev₁ = (isbad faults r.dev r.block).1)
    (hload : dev₂.toNandDev = Nand.loadBlock nand dev₁.toNandDev r.block r.boffs r.data.length)
    (hbad : dev₂.bad = dev₁.bad) :
    Passes nand r
      { dev := copyData dev₂ r.boffs
          (r.data.take (min r.data.length (nand.erasesz - r.boffs)))
        err := false
        block := r.block + 1
        boffs := 0
        data := r.data.drop (min r.data.length (nand.erasesz - r.boffs))
        ret := r.ret + min r.data.length (nand.erasesz - r.boffs) } where
  ready :=
    { err := rfl
      boffs := nand.erasesz_pos
      block := hblock
      cached := by
        intro _
        have hw : dev₂.wblock = r.block := congrArg NandDev.wblock hload
        refine ⟨rfl, ?_, fun b hb hlt => ?_⟩
        · exact Nat.lt_succ_of_le (Nat.le_of_eq hw)
        · exact absurd (Nat.le_of_lt_succ hlt) (Nat.not_le.mpr (hw ▸ hb)) }
  block := Nat.lt_succ_self _
  ret := Nat.le_add_right _ _
  left := by
    rw [Nat.add_sub_cancel_left, List.length_drop]
    exact Nat.add_sub_of_le (Nat.min_le_left _ _)
  delivers := by
    intro dev' n h
    have hchip : dev₂.chip = dev₁.chip :=
      (congrArg NandDev.chip hload).trans (loadBlock_chip _ _ _ _)
    have hwnand : dev₂.wnand = true := congrArg NandDev.wnand hload
    have hw : dev₂.wblock = r.block := congrArg NandDev.wblock hload
    have hrest := h.cached hwnand
    rw [Nat.add_sub_cancel_left]
    have hfrom : Delivers nand dev₁ dev' r.block r.boffs
        (r.data.take (min r.data.length (nand.erasesz - r.boffs) + n)) := by
      refine Delivers.loaded hr.boffs hchip hbad ?_
      rw [← hw]
      exact hrest
    cases hbefore with
    | inl hsync =>
        obtain ⟨hcached, hreloc, hlt⟩ := hsync
        obtain ⟨hboffs, -, hbetween⟩ := hr.cached hcached
        rw [hboffs] at hfrom
        rw [Round.delivers_cached hcached, hboffs]
        refine (hreloc.delivers hfrom hlt (Nat.le_of_lt hblock) fun b hb hle => ?_).of_same rfl rfl
        rw [hreloc.bad b (.inr (Nat.le_of_lt hb))]
        exact hbetween b (Nat.lt_of_le_of_lt hreloc.le hb) hle
    | inr hempty =>
        rw [hempty.2] at hfrom
        rw [Round.delivers_empty hempty.1]
        exact hfrom.of_same rfl rfl

/-- A round fails, ends the loop, or goes over to the next. -/
def Next.Follows (nand : NandInfo) (r : Round) : Next → Prop
  | .round r' => Passes nand r r'
  | .done dev ret => ret < 0 ∨ dev = r.dev ∧ ret = r.ret

theorem writeRound_follows (h : Recoverable faults) (hr : r.Ready nand) :
    (writeRound faults nand r).Follows nand r := by
  have hquery := h.isbad_eq r.dev r.block
  have hout := @cacheBlock_outcome faults nand (isbad faults r.dev r.block).1 r.block r.boffs h
    r.data.length fun hw => (hr.cached hw).2.1
  rw [← hr.err] at hout
  fun_cases writeRound faults nand r with
  | case1 hgo q hbad => exact passes_skip hr hgo.1 (hquery.symm.trans hbad)
  | case2 hgo q hgood c err hc =>
      have hfail : Cached.Outcome nand r.block r.boffs r.data.length q.1 c.1 (.failed err) :=
        hc ▸ hout
      exact .inl hfail
  | case3 hgo q hgood c hc =>
      have htaken : Cached.Outcome nand r.block r.boffs r.data.length q.1 c.1 .taken := hc ▸ hout
      exact passes_taken hr htaken.1 htaken.2.1 htaken.2.2
  | case4 hgo q hgood c hc =>
      have hlost : Cached.Outcome nand r.block r.boffs r.data.length q.1 c.1 .lost := hc ▸ hout
      exact hlost.elim
  | case5 hgo q hgood c err hc size =>
      have hready : Cached.Outcome nand r.block r.boffs r.data.length q.1 c.1 (.ready err) :=
        hc ▸ hout
      obtain ⟨rfl, dev₁, hbefore, hload, hbad⟩ := hready
      exact passes_ready hr hgo.1 hbefore hload hbad
  | case6 hstop => exact .inr ⟨rfl, rfl⟩

/-- A synchronisation at the end stores what is still cached. -/
theorem Round.sync_delivers (h : Recoverable faults) (r : Round)
    (hok : 0 ≤ (dataSync faults nand r.dev).2) :
    r.Delivers nand (dataSync faults nand r.dev).1 0 := by
  cases hw : r.dev.wnand with
  | true =>
      have hcached : (clearLog r.dev).wnand = true := hw
      obtain ⟨hsync, -⟩ := dataDoSync_relocated h hcached hok
      have hnil : Faulty.Delivers nand (dataSync faults nand r.dev).1 (dataSync faults nand r.dev).1
          ((dataSync faults nand r.dev).1.wblock + 1) 0 [] :=
        Delivers.nil (fun _ _ => rfl) fun _ _ => rfl
      rw [Round.delivers_cached hw]
      exact (hsync.delivers hnil (Nat.lt_succ_self _) hsync.lt
        fun b hb hlt => absurd hb (Nat.not_lt.mpr (Nat.le_of_lt_succ hlt))).of_same rfl rfl
  | false =>
      have hempty : (invalidatePage (clearLog r.dev)).wnand = false := hw
      rw [Round.delivers_empty hw, dataSync, dataDoSync, hempty, if_neg Bool.false_ne_true]
      exact Delivers.nil (fun _ _ => rfl) fun _ _ => rfl

/-- What a run of rounds and a last synchronisation deliver. -/
theorem writeLoop_delivers (h : Recoverable faults) (fuel : Nat) (hr : r.Ready nand) {ret : Nat}
    (hret : (writeLoop faults nand fuel r).2 = ret)
    (hok : 0 ≤ (dataSync faults nand (writeLoop faults nand fuel r).1).2) :
    ∃ n, ret = r.ret + n ∧ n ≤ r.data.length ∧
      r.Delivers nand (dataSync faults nand (writeLoop faults nand fuel r).1).1 n := by
  induction fuel generalizing r with
  | zero => exact ⟨0, Int.ofNat.inj hret.symm, Nat.zero_le _, r.sync_delivers h hok⟩
  | succ fuel ih =>
      have hnext := writeRound_follows h hr
      rw [writeLoop] at hret hok ⊢
      cases hround : writeRound faults nand r with
      | round r' =>
          rw [hround] at hnext hret hok
          obtain ⟨n, hn, hle, hrest⟩ := ih hnext.ready hret hok
          have hsize := hnext.ret
          have hleft := hnext.left
          exact ⟨r'.ret - r.ret + n, by omega, by omega, hnext.delivers _ n hrest⟩
      | done dev ret' =>
          rw [hround] at hnext hret hok
          have hret : ret' = ret := hret
          cases hnext with
          | inl hfail => omega
          | inr hstop =>
              obtain ⟨rfl, rfl⟩ := hstop
              exact ⟨0, Int.ofNat.inj hret.symm, Nat.zero_le _, r.sync_delivers h hok⟩

end Rounds

section Read
variable {faults : Faults} {nand : NandInfo}

theorem Recoverable.cachePage_eq (h : Recoverable faults) (dev : FaultyDev) (block page : Nat) :
    ∃ dev', cachePage faults nand dev block page = (dev', false) ∧
      dev'.toNandDev = Nand.cachePage nand dev.toNandDev page ∧ dev'.bad = dev.bad := by
  rw [cachePage, Nand.cachePage]
  split
  · exact ⟨dev, rfl, rfl, rfl⟩
  · rw [h.read, if_neg Bool.false_ne_true]
    exact ⟨_, rfl, rfl, rfl⟩

/-- The pages of a block are read whatever blocks are bad. -/
theorem Recoverable.readPages_eq (h : Recoverable faults) (info dev : FaultyDev)
    (block n page poffs len : Nat) :
    ∃ dev', readPages faults nand block n dev page poffs len =
        (dev', (Nand.readPages (withBad nand info) n dev.toNandDev page poffs len).2, false) ∧
      dev'.toNandDev = (Nand.readPages (withBad nand info) n dev.toNandDev page poffs len).1 ∧
      dev'.bad = dev.bad := by
  induction n generalizing dev page poffs len with
  | zero => exact ⟨dev, rfl, rfl, rfl⟩
  | succ n ih =>
      rw [readPages, Nand.readPages]
      by_cases hlen : 0 < len
      · obtain ⟨dev₁, hcache, hdev₁, hbad₁⟩ := @cachePage_eq faults nand h dev block page
        obtain ⟨dev₂, hrest, hdev₂, hbad₂⟩ :=
          ih dev₁ (page + 1) 0 (len - min len (nand.writesz - poffs))
        rw [hdev₁] at hrest hdev₂
        simp only [if_pos hlen, hcache, hrest, hdev₁, if_neg Bool.false_ne_true]
        exact ⟨dev₂, rfl, hdev₂, hbad₂.trans hbad₁⟩
      · rw [if_neg hlen, if_neg hlen]
        exact ⟨dev, rfl, rfl, rfl⟩

/-- Reads that succeed are those of a flash with the blocks now bad. -/
theorem Recoverable.readLoop_eq (h : Recoverable faults) (fuel : Nat) (dev : FaultyDev)
    (block boffs len : Nat) :
    ∃ dev', readLoop faults nand fuel dev block boffs len =
        (dev', (Nand.readLoop (withBad nand dev) fuel dev.toNandDev block boffs len).2, false) ∧
      dev'.toNandDev = (Nand.readLoop (withBad nand dev) fuel dev.toNandDev block boffs len).1 ∧
      dev'.bad = dev.bad := by
  induction fuel generalizing dev block boffs len with
  | zero => exact ⟨dev, rfl, rfl, rfl⟩
  | succ fuel ih =>
      have hquery := h.isbad_eq dev block
      rw [readLoop, Nand.readLoop]
      by_cases hgo : block < nand.nblocks ∧ 0 < len
      · have hgo' : block < (withBad nand dev).nblocks ∧ 0 < len := hgo
        rw [if_pos hgo, if_pos hgo']
        simp only [hquery]
        cases hbad : dev.bad block with
        | true =>
            have hbad' : (withBad nand dev).bad block = true := hbad
            rw [if_pos rfl, if_pos hbad']
            exact ih (Faulty.isbad faults dev block).1 (block + 1) boffs len
        | false =>
            have hgood' : ¬(withBad nand dev).bad block = true := Bool.eq_false_iff.mp hbad
            rw [if_neg Bool.false_ne_true, if_neg hgood']
            by_cases hcached : dev.wnand = true ∧ block = dev.wblock
            · have hcached' : (Faulty.isbad faults dev block).1.wnand = true ∧
                  block = (Faulty.isbad faults dev block).1.wblock := hcached
              obtain ⟨dev₁, hrest, hdev₁, hbad₁⟩ := ih (Faulty.isbad faults dev block).1
                (block + 1) 0 (len - min len (nand.erasesz - boffs))
              rw [if_pos hcached, if_pos hcached', hrest]
              exact ⟨dev₁, rfl, hdev₁, hbad₁⟩
            · have hother : ¬((Faulty.isbad faults dev block).1.wnand = true ∧
                  block = (Faulty.isbad faults dev block).1.wblock) := hcached
              obtain ⟨dev₁, hpages, hdev₁, hbad₁⟩ := @readPages_eq faults nand h dev
                (Faulty.isbad faults dev block).1 block (nand.npages - boffs / nand.writesz)
                (block * nand.npages + boffs / nand.writesz) (boffs % nand.writesz) len
              have hsame : withBad nand dev₁ = withBad nand dev := by
                rw [withBad, withBad, hbad₁]
                rfl
              rw [if_neg hcached, if_neg hother, hpages, if_neg Bool.false_ne_true]
              obtain ⟨dev₂, hrest, hdev₂, hbad₂⟩ := ih dev₁ (block + 1) 0
                (len - (Nand.readPages (withBad nand dev) (nand.npages - boffs / nand.writesz)
                  (Faulty.isbad faults dev block).1.toNandDev
                  (block * nand.npages + boffs / nand.writesz) (boffs % nand.writesz) len).2.length)
              rw [hsame, hdev₁] at hrest hdev₂
              rw [hrest]
              exact ⟨dev₂, rfl, hdev₂, hbad₂.trans hbad₁⟩
      · have hgo' : ¬(block < (withBad nand dev).nblocks ∧ 0 < len) := hgo
        rw [if_neg hgo, if_neg hgo']
        exact ⟨dev, rfl, rfl, rfl⟩

theorem dataSync_empty (h : Recoverable faults) {dev : FaultyDev}
    (hok : 0 ≤ (dataSync faults nand dev).2) :
    (dataSync faults nand dev).1.wnand = false ∧ (dataSync faults nand dev).1.rnand = false := by
  cases hw : dev.wnand with
  | true =>
      have hcached : (clearLog dev).wnand = true := hw
      obtain ⟨hsync, hrnand⟩ := dataDoSync_relocated h hcached hok
      exact ⟨hsync.wnand, hrnand⟩
  | false =>
      have hempty : (invalidatePage (clearLog dev)).wnand = false := hw
      rw [dataSync, dataDoSync, hempty, if_neg Bool.false_ne_true]
      exact ⟨hw, rfl⟩

/-- The blocks that hold the data are read. -/
theorem Delivers.dataRead (h : Recoverable faults) {dev dev' : FaultyDev} {offs : Nat}
    {data : List UInt8} (hw : dev'.wnand = false) (hr : dev'.rnand = false)
    (hoffs : offs < nand.size)
    (hdata : Delivers nand dev dev' (offs / nand.erasesz) (offs % nand.erasesz) data) :
    (dataRead faults nand dev' offs data.length).2 = (data, (data.length : Int)) := by
  have hboffs : offs % nand.erasesz < nand.erasesz := Nat.mod_lt offs nand.erasesz_pos
  have hparts := Nat.div_add_mod' offs nand.erasesz
  have hroom : capacity (withBad nand dev') (offs / nand.erasesz) ≤
      nand.size - offs / nand.erasesz * nand.erasesz := capacity_le (withBad nand dev') _
  have hsize := hdata.size
  have hlen : min data.length (nand.size - offs) = data.length := by omega
  have hcoherent : Coherent (withBad nand dev') (clearLog dev').toNandDev := coherent_of_empty hw hr
  obtain ⟨dev₁, hread, -⟩ := hcoherent.readLoop nand.nblocks (offs / nand.erasesz) data.length
    (Nat.le_add_left _ _) hboffs
  have hcontent : (clearLog dev').content (withBad nand dev') = dev'.chip :=
    if_neg (Bool.eq_false_iff.mp hw)
  rw [hcontent, Nat.min_eq_left hsize, hdata.data] at hread
  obtain ⟨dev₂, hloop, -⟩ := @Recoverable.readLoop_eq faults nand h nand.nblocks (clearLog dev')
    (offs / nand.erasesz) (offs % nand.erasesz) data.length
  have hsame : withBad nand (clearLog dev') = withBad nand dev' := rfl
  rw [hsame, hread] at hloop
  rw [Faulty.dataRead, if_neg (Nat.not_le.mpr hoffs), hlen, hloop]
  rfl

/-- Reading nothing. -/
theorem dataRead_none {dev : FaultyDev} {offs : Nat} (hoffs : offs < nand.size) :
    (dataRead faults nand dev offs 0).2 = ([], 0) := by
  have hloop : ∀ fuel dev block boffs,
      readLoop faults nand fuel dev block boffs 0 = (dev, [], false) := by
    intro fuel dev block boffs
    cases fuel with
    | zero => rfl
    | succ fuel => exact if_neg fun h => Nat.lt_irrefl 0 h.2
  rw [Faulty.dataRead, if_neg (Nat.not_le.mpr hoffs), Nat.zero_min, hloop]
  rfl

end Read

section Transfer
variable {faults : Faults} {nand : NandInfo}

/-- Although blocks fail while it is written, what a write accepts is read back after
a synchronisation. -/
theorem dataWrite_dataRead (h : Recoverable faults) {dev : FaultyDev} (hempty : dev.wnand = false)
    (offs : Nat) (data : List UInt8) (n : Nat) (hwrite : (dataWrite faults nand dev offs data).2 = n)
    (hsync : (dataSync faults nand (dataWrite faults nand dev offs data).1).2 = EOK) :
    (dataRead faults nand (dataSync faults nand (dataWrite faults nand dev offs data).1).1 offs n).2 =
      (data.take n, (n : Int)) := by
  have hok : 0 ≤ (dataSync faults nand (dataWrite faults nand dev offs data).1).2 :=
    Int.le_of_eq hsync.symm
  obtain ⟨hw, hr⟩ := dataSync_empty h hok
  have hinval : - EINVAL < 0 := by decide
  rw [dataWrite] at hwrite hok hw hr ⊢
  by_cases hend : nand.size ≤ offs
  · rw [if_pos hend] at hwrite
    omega
  · have hoffs := Nat.lt_of_not_le hend
    rw [if_neg hend] at hwrite hok hw hr ⊢
    by_cases hnone : data.take (nand.size - offs) = []
    · rw [if_pos hnone] at hwrite ⊢
      have hzero : n = 0 := Int.ofNat.inj hwrite.symm
      rw [hzero, dataRead_none hoffs]
      rfl
    · rw [if_neg hnone] at hwrite hok hw hr ⊢
      have hready : (firstRound nand dev offs (data.take (nand.size - offs))).Ready nand :=
        { err := rfl
          boffs := Nat.mod_lt offs nand.erasesz_pos
          block := Nat.div_le_div_right hoffs.le
          cached := fun hcached => absurd (hempty.symm.trans hcached) Bool.false_ne_true }
      obtain ⟨m, hm, hle, hrounds⟩ := writeLoop_delivers h nand.nblocks hready hwrite hok
      have hstart : (firstRound nand dev offs (data.take (nand.size - offs))).ret = 0 := rfl
      have hdata : (firstRound nand dev offs (data.take (nand.size - offs))).data =
          data.take (nand.size - offs) := rfl
      rw [hdata, List.length_take] at hle
      have hmn : n = m := by omega
      have htake : (data.take (nand.size - offs)).take n = data.take n := by
        rw [List.take_take, Nat.min_eq_left (by omega)]
      have hlen : (data.take n).length = n := List.length_take_of_le (by omega)
      have hrest := hrounds.empty hempty
      rw [← hmn, hdata, htake] at hrest
      have hread := hrest.dataRead h hw hr hoffs
      rw [hlen] at hread
      exact hread

/-- A flash of four blocks of two pages. -/
def smallNand : NandInfo where
  size := 8
  writesz := 1
  erasesz := 2
  bad := fun _ => false
  writesz_pos := by decide
  writesz_dvd := by decide
  erasesz_pos := by decide
  erasesz_dvd := by decide
  size_lt := by decide

/-- The fifth operation fails if it is an erase. -/
def oneEraseFault : Faults where
  isbadFails := fun _ => false
  readFails := fun _ => false
  eraseFails := fun time => time == 4
  writeFails := fun _ => false
  markFails := fun _ => false
  junk := fun _ _ => 0
  marker := fun _ => false

/-- The second block is bad. -/
def wornDev : FaultyDev :=
  { dataInit (fun _ => 0xff) (fun _ => 0) (fun _ => 0) with
    bad := fun block => block == 1
    time := 0
    log := [] }

/-- The first block fails and its data goes to the third, so that the rest goes to the
fourth. -/
theorem dataWrite_dataRead_relocated :
    (dataRead oneEraseFault smallNand (dataSync oneEraseFault smallNand
      (dataWrite oneEraseFault smallNand wornDev 0 [1, 2, 3]).1).1 0 3).2 = ([1, 2, 3], 3) :=
  dataWrite_dataRead ⟨fun _ => rfl, fun _ => rfl, fun _ => rfl⟩ rfl 0 [1, 2, 3] 3
    (by decide +kernel) (by decide +kernel)

end Transfer

end Plo.Devices.Nand.Faulty
