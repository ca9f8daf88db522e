import Mathlib.Tactic.Common
import Plo.Devices.NandCtrlPages

/-!
What the calls leave alone. A call changes no bad block and none before the one it
starts in, so a block that is in the table and has its marker is never programmed or
erased again; when the power goes off and on the marker puts it back in the table.
-/
namespace Plo.Devices.NandCtrl

section Table
variable (die : Die)

theorem shiftRight_five (b : Nat) : b >>> 5 = b / 32 := Nat.shiftRight_eq_div_pow b 5

theorem and_thirtyOne (b : Nat) : b &&& 31 = b % 32 := Nat.and_two_pow_sub_one_eq_mod b 5

theorem isbad_set (b c : Nat) :
    isbad (badBlockTableSet die b) c = (isbad die c || decide (c = b)) := by
  simp only [isbad, badBlockTableSet, shiftRight_five, and_thirtyOne]
  by_cases hword : c / 32 = b / 32
  · rw [hword, Function.update_self, BitVec.getLsbD_or]
    congr 1
    have hlt : c % 32 < 32 := Nat.mod_lt _ (by decide)
    rw [BitVec.getLsbD_shiftLeft, decide_eq_true hlt, Bool.true_and, BitVec.getLsbD_one]
    by_cases heq : c = b
    · simp [heq]
    · have hne : c % 32 ≠ b % 32 := fun hmod => heq (by omega)
      by_cases hless : c % 32 < b % 32
      · simp [hless, heq]
      · have hpos : ¬c % 32 - b % 32 = 0 := by omega
        simp [hless, hpos, heq]
  · have hne : c ≠ b := fun heq => hword (by rw [heq])
    rw [Function.update_of_ne hword, decide_eq_false hne, Bool.or_false]

end Table

/-- The blocks are as they were, in the flash and in the table. -/
structure Same (nand : Info) (P : Nat → Prop) (die die' : Die) : Prop where
  chip : ∀ {page}, P (nand.block page) → die'.chip page = die.chip page
  bbt : ∀ {b}, P b → isbad die' b = isbad die b
  cycles : ∀ {b}, P b → die'.cycles b = die.cycles b

section Same
variable {nand : Info} {P : Nat → Prop} {die die' die'' : Die} {f : Faults} {ecc : Ecc nand}

theorem Same.refl : Same nand P die die := ⟨fun _ => rfl, fun _ => rfl, fun _ => rfl⟩

theorem Same.trans (h : Same nand P die die') (h' : Same nand P die' die'') :
    Same nand P die die'' where
  chip hp := (h'.chip hp).trans (h.chip hp)
  bbt hp := (h'.bbt hp).trans (h.bbt hp)
  cycles hp := (h'.cycles hp).trans (h.cycles hp)

theorem same_tick : Same nand P die (tick die) := ⟨fun _ => rfl, fun _ => rfl, fun _ => rfl⟩

/-- A block that is to stay is not the one that changes. -/
theorem ne_of_kept {b c : Nat} (hb : P b) (hc : ¬P c) : b ≠ c := fun heq => hc (heq ▸ hb)

theorem same_programPage {page : Nat} (hp : ¬P (nand.block page)) (loads : List Load) :
    Same nand P die (programPage ecc f die page loads).1 where
  chip hq := Function.update_of_ne (fun heq => ne_of_kept hq hp (congrArg nand.block heq)) ..
  bbt _ := rfl
  cycles hq := Function.update_of_ne (ne_of_kept hq hp) ..

theorem same_eraseBlock {block : Nat} (hp : ¬P block) :
    Same nand P die (eraseBlock f die nand block).1 where
  chip hq := if_neg (ne_of_kept hq hp)
  bbt _ := rfl
  cycles hq := Function.update_of_ne (ne_of_kept hq hp) ..

theorem same_set {block : Nat} (hp : ¬P block) : Same nand P die (badBlockTableSet die block) where
  chip _ := rfl
  bbt hq := by rw [isbad_set, decide_eq_false (ne_of_kept hq hp), Bool.or_false]
  cycles _ := rfl

theorem Info.block_page (nand : Info) {block page : Nat} (h : page < nand.pagesPerBlock) :
    nand.block (block * nand.pagesPerBlock + page) = block := by
  rw [Info.block, Nat.mul_comm, Nat.mul_add_div nand.pagesPerBlock_pos, Nat.div_eq_of_lt h,
    Nat.add_zero]

theorem Info.block_first (nand : Info) (block : Nat) :
    nand.block (block * nand.pagesPerBlock) = block :=
  nand.block_page nand.pagesPerBlock_pos

theorem same_markbad {block : Nat} (hp : ¬P block) : Same nand P die (markbad ecc f die block).1 := by
  have hprogram : Same nand P die (programPage ecc f die (block * nand.pagesPerBlock)
      [⟨nand.writesz, [0], false⟩]).1 :=
    same_programPage (by rwa [nand.block_first]) _
  simp only [markbad]
  split
  · exact hprogram.trans (same_set hp)
  · exact hprogram

theorem same_writePages {block : Nat} (hp : ¬P block) (n : Nat) {page : Nat}
    (hpages : page + n ≤ nand.pagesPerBlock) (poffs : Nat) (data : List UInt8) (ret : Nat) :
    Same nand P die (writePages ecc f block n page poffs data ret die).die := by
  induction n generalizing page poffs data ret die with
  | zero => exact Same.refl
  | succ n ih =>
      rw [writePages]
      split
      · exact Same.refl
      · have hwrite : Same nand P die (pageWrite ecc f die (block * nand.pagesPerBlock + page)
            (pageBuffer nand poffs (data.take (min data.length (nand.writesz - poffs))))).1 :=
          same_programPage (by rwa [nand.block_page (by omega)]) _
        dsimp only
        split
        · exact hwrite.trans same_tick
        · split
          · split <;> exact hwrite.trans (same_markbad hp)
          · exact hwrite.trans (ih (by omega) ..)

/-- The blocks that stay are bad, or they are in front of those the loop goes through. -/
theorem same_writeBlocks (n : Nat) {block : Nat} (hbad : ∀ b, block ≤ b → P b → isbad die b = true)
    (boffs : Nat) (data : List UInt8) (ret : Nat) :
    Same nand P die (writeBlocks ecc f n block boffs data ret die).1 := by
  induction n generalizing block boffs data ret die with
  | zero => exact Same.refl
  | succ n ih =>
      have hnext : ∀ b, block + 1 ≤ b → P b → isbad die b = true := fun b hb => hbad b (by omega)
      rw [writeBlocks]
      split
      · exact Same.refl
      · split
        · exact ih hnext ..
        · next hgood =>
          have hsame : Same nand P die (writePages ecc f block
              (nand.pagesPerBlock - boffs / nand.writesz) (boffs / nand.writesz)
              (boffs % nand.writesz) data ret die).die := by
            by_cases hle : boffs / nand.writesz ≤ nand.pagesPerBlock
            · exact same_writePages (fun hp => hgood (hbad block le_rfl hp)) _ (by omega) ..
            · rw [Nat.sub_eq_zero_of_le (by omega)]
              exact Same.refl
          dsimp only
          split
          · next h =>
            rw [h] at hsame
            exact hsame
          · next h =>
            rw [h] at hsame
            refine hsame.trans (ih (fun b hb hp => ?_) ..)
            rw [hsame.bbt hp]
            exact hnext b hb hp

theorem same_eraseBlocks (n : Nat) {block : Nat} (hbad : ∀ b, block ≤ b → P b → isbad die b = true)
    (len ret : Nat) : Same nand P die (eraseBlocks ecc f n block len ret die).1 := by
  induction n generalizing block ret die with
  | zero => exact Same.refl
  | succ n ih =>
      have hnext : ∀ b, block + 1 ≤ b → P b → isbad die b = true := fun b hb => hbad b (by omega)
      rw [eraseBlocks]
      split
      · exact Same.refl
      · split
        · exact ih hnext _
        · next hgood =>
          have hfree : ¬P block := fun hp => hgood (hbad block le_rfl hp)
          have herase : Same nand P die (eraseBlock f die nand block).1 := same_eraseBlock hfree
          dsimp only
          split
          · exact herase.trans same_tick
          · split
            · have hmark : Same nand P die (markbad ecc f (eraseBlock f die nand block).1 block).1 :=
                herase.trans (same_markbad hfree)
              split
              · exact hmark
              · exact hmark.trans (ih (fun b hb hp => by rw [hmark.bbt hp]; exact hnext b hb hp) _)
            · exact herase.trans (ih (fun b hb hp => by rw [herase.bbt hp]; exact hnext b hb hp) _)

theorem same_metaWriteLoop (fuel : Nat) {page : Nat}
    (hbad : ∀ b, nand.block page ≤ b → P b → isbad die b = true) {data : List UInt8} {ret : Nat}
    {r : Die × Int} (hr : metaWriteLoop ecc f fuel page data ret die = some r) :
    Same nand P die r.1 := by
  induction fuel generalizing page data ret die with
  | zero =>
      rw [metaWriteLoop] at hr
      split at hr
      · cases hr
        exact Same.refl
      · split at hr <;> cases hr
  | succ fuel ih =>
      rw [metaWriteLoop] at hr
      split at hr
      · cases hr
        exact Same.refl
      · split at hr
        · cases hr
        · dsimp only at hr
          split at hr
          · refine ih (fun b hb hp => hbad b ?_ hp) hr
            rw [nand.block_first] at hb
            omega
          · next hgood =>
            have hwrite : Same nand P die (flashMetaWrite ecc f die page
                (data.take nand.spareavail ++ List.replicate
                  (nand.spareavail - (data.take nand.spareavail).length) 0xff)).1 :=
              same_programPage (fun hp => hgood (hbad _ le_rfl hp)) _
            split at hr
            · cases hr
              exact hwrite
            · refine hwrite.trans (ih (fun b hb hp => ?_) hr)
              rw [hwrite.bbt hp]
              exact hbad b ((Nat.div_le_div_right (Nat.le_succ page)).trans hb) hp

theorem same_pageRead (page : Nat) : Same nand P die (pageRead ecc f die page).1 := by
  rw [pageRead]
  split
  · exact same_tick
  · split
    · exact same_tick
    · simp only [verifyEccError]
      split
      · exact same_tick.trans same_tick
      · split <;> exact same_tick.trans same_tick

theorem same_readPages (block n page poffs len : Nat) :
    Same nand P die (readPages ecc f block n page poffs len die).1 := by
  induction n generalizing page poffs len die with
  | zero => exact Same.refl
  | succ n ih =>
      rw [readPages]
      split
      · exact Same.refl
      · dsimp only
        split
        · exact same_pageRead _
        · exact (same_pageRead _).trans (ih ..)

theorem same_readBlocks (n block boffs len : Nat) :
    Same nand P die (readBlocks ecc f n block boffs len die).1 := by
  induction n generalizing block boffs len die with
  | zero => exact Same.refl
  | succ n ih =>
      rw [readBlocks]
      split
      · exact Same.refl
      · split
        · exact ih ..
        · dsimp only
          split
          · exact same_readPages ..
          · exact (same_readPages ..).trans (ih ..)

theorem same_dataRead (offs len : Nat) : Same nand P die (dataRead ecc f offs len die).1 := by
  rw [dataRead]
  split
  · exact Same.refl
  · dsimp only
    split
    · exact same_readBlocks ..
    · split
      · exact (same_readBlocks ..).trans same_tick
      · split <;> exact same_readBlocks ..

/-- The block a call starts in; reading changes none. -/
def Call.first (nand : Info) : Call → Nat
  | dataRead _ _ => nand.nblocks
  | dataWrite offs _ => offs / nand.erasesz
  | dataErase offs _ => offs / nand.erasesz
  | metaWrite offs _ => nand.block (offs / nand.spareavail)

/-- A call changes no bad block and none before its first. -/
theorem same_call {c : Call} (hbad : ∀ b, c.first nand ≤ b → P b → isbad die b = true)
    (hrun : c.run ecc f die = some die') : Same nand P die die' := by
  cases c with
  | dataRead offs len =>
      cases hrun
      exact same_dataRead ..
  | dataWrite offs data =>
      cases hrun
      rw [dataWrite]
      split
      · exact Same.refl
      · exact same_writeBlocks _ hbad ..
  | dataErase offs len =>
      cases hrun
      rw [dataErase]
      split
      · exact Same.refl
      · exact same_eraseBlocks _ hbad ..
  | metaWrite offs data =>
      obtain ⟨r, hr, rfl⟩ := Option.map_eq_some_iff.mp hrun
      rw [metaWrite] at hr
      split at hr
      · cases hr
        exact Same.refl
      · exact same_metaWriteLoop _ hbad hr

end Same

section Scan
variable {nand : Info} {f : Faults}

theorem isBlockBadPhys_die (die : Die) (block : Nat) :
    (isBlockBadPhys f die nand block).1 = tick die := by
  simp only [isBlockBadPhys, rawRead]
  split <;> rfl

theorem isBlockBadPhys_of_marker {die : Die} {block : Nat} (h : marker die nand block = 0) :
    (isBlockBadPhys f die nand block).2 = true := by
  simp only [isBlockBadPhys, rawRead]
  split
  · rfl
  · next heq =>
    split at heq
    · cases heq
    · cases heq
      exact decide_eq_true h

theorem isBlockBadPhys_clean (hclean : ∀ t, f t = .done) (die : Die) (block : Nat) :
    (isBlockBadPhys f die nand block).2 = decide (marker die nand block = 0) := by
  simp only [isBlockBadPhys, rawRead, hclean, Outcome.runErr, lt_irrefl, if_false]
  rfl

/-- The scan changes nothing but the table. -/
theorem scanBadBlocks_frame (n block : Nat) (die : Die) :
    (scanBadBlocks f nand block n die).chip = die.chip ∧
      (scanBadBlocks f nand block n die).cycles = die.cycles := by
  induction n generalizing block die with
  | zero => exact ⟨rfl, rfl⟩
  | succ n ih =>
      rw [scanBadBlocks]
      obtain ⟨hchip, hcycles⟩ := ih (block + 1)
        (if (isBlockBadPhys f die nand block).2 then
          badBlockTableSet (isBlockBadPhys f die nand block).1 block
        else (isBlockBadPhys f die nand block).1)
      rw [isBlockBadPhys_die] at hchip hcycles
      rw [isBlockBadPhys_die, hchip, hcycles]
      split <;> exact ⟨rfl, rfl⟩

/-- The table after the scan: what it had, and the blocks that the scan found bad. -/
theorem isbad_scanBadBlocks (n block : Nat) (die : Die) {c : Nat}
    (h : isbad die c = true ∨ block ≤ c ∧ c < block + n ∧ marker die nand c = 0) :
    isbad (scanBadBlocks f nand block n die) c = true := by
  induction n generalizing block die with
  | zero =>
      refine h.elim id fun hin => ?_
      omega
  | succ n ih =>
      rw [scanBadBlocks]
      refine ih _ _ ?_
      rw [isBlockBadPhys_die]
      have htick : isbad (tick die) c = isbad die c := rfl
      rcases h with hbad | ⟨hlo, hhi, hmarker⟩
      · left
        split
        · rw [isbad_set, htick, hbad, Bool.true_or]
        · rw [htick, hbad]
      · by_cases heq : c = block
        · left
          rw [← heq, isBlockBadPhys_of_marker hmarker, if_pos rfl, isbad_set, decide_eq_true rfl,
            Bool.or_true]
        · right
          refine ⟨by omega, by omega, ?_⟩
          split <;> exact hmarker

/-- When every marker could be read, only marked blocks are added. -/
theorem isbad_scanBadBlocks_clean (hclean : ∀ t, f t = .done) (n block : Nat) (die : Die) {c : Nat}
    (h : isbad (scanBadBlocks f nand block n die) c = true) :
    isbad die c = true ∨ marker die nand c = 0 := by
  induction n generalizing block die with
  | zero => exact Or.inl h
  | succ n ih =>
      rw [scanBadBlocks] at h
      have hnext := ih _ _ h
      rw [isBlockBadPhys_die, isBlockBadPhys_clean hclean] at hnext
      by_cases hmark : marker die nand block = 0
      · rw [if_pos (decide_eq_true hmark), isbad_set] at hnext
        rcases hnext with hbad | hmarker
        · rcases Bool.or_eq_true_iff.mp hbad with hold | heq
          · exact Or.inl hold
          · rw [of_decide_eq_true heq]
            exact Or.inr hmark
        · exact Or.inr hmarker
      · rw [if_neg (fun hd => hmark (of_decide_eq_true hd))] at hnext
        exact hnext

end Scan

/-! Runs. -/

/-- What happens to the flash: a call, the power going off and on, and bits flipping. -/
inductive Event
  | call (c : Call) (f : Faults)
  | reboot (f : Faults)
  | wear (chip : Nat → Nat → UInt8)

/-- Bits flip, but no page loses what it holds, and the markers stay what they are. -/
structure Wears {nand : Info} (ecc : Ecc nand) (chip chip' : Nat → Nat → UInt8) : Prop where
  pages : ∀ {page content}, Holds ecc (chip page) content → Holds ecc (chip' page) content
  markers : ∀ b, chip' (b * nand.pagesPerBlock) nand.writesz = 0 ↔
    chip (b * nand.pagesPerBlock) nand.writesz = 0

inductive Step {nand : Info} (ecc : Ecc nand) : Event → Die → Die → Prop
  | call {c f die die'} (h : c.run ecc f die = some die') : Step ecc (.call c f) die die'
  | reboot {f die} : Step ecc (.reboot f) die (reboot f die nand)
  | wear {chip die} (h : Wears ecc die.chip chip) :
      Step ecc (.wear chip) die { die with chip := chip }

inductive Run {nand : Info} (ecc : Ecc nand) : List Event → Die → Die → Prop
  | nil {die} : Run ecc [] die die
  | cons {e evs die die' die''} (h : Step ecc e die die') (hrun : Run ecc evs die' die'') :
      Run ecc (e :: evs) die die''

/-- A block that is in the table and has its marker. -/
structure Retired (nand : Info) (die : Die) (b : Nat) : Prop where
  lt : b < nand.nblocks
  isbad : isbad die b = true
  marker : marker die nand b = 0

section Retired
variable {nand : Info} {ecc : Ecc nand} {die die' : Die} {b : Nat}

theorem Same.marker {P : Nat → Prop} (h : Same nand P die die') (hb : P b) :
    marker die' nand b = marker die nand b := by
  rw [NandCtrl.marker, h.chip (by rwa [nand.block_first]), NandCtrl.marker]

theorem retired_reboot {f : Faults} (hlt : b < nand.nblocks) (h : marker die nand b = 0) :
    Retired nand (reboot f die nand) b := by
  refine ⟨hlt, isbad_scanBadBlocks _ _ _ (Or.inr ⟨Nat.zero_le _, by omega, h⟩), ?_⟩
  rw [reboot, marker, (scanBadBlocks_frame ..).1]
  exact h

theorem done_of_statusErr {o : Outcome} (h : ¬o.statusErr < 0) : o = .done := by
  cases o with
  | done => rfl
  | timeout junk => exact absurd (by rw [Outcome.statusErr, ETIME]; decide) h
  | fatal junk => exact absurd (by rw [Outcome.statusErr, EIO]; decide) h
  | failed junk => exact absurd (by rw [Outcome.statusErr, EIO]; decide) h

theorem programPage_result (f : Faults) (die : Die) (page : Nat) (loads : List Load) :
    (programPage ecc f die page loads).2 = (f die.time).statusErr := rfl

/-- A block that was marked is in the table. -/
theorem marked_markbad (ecc : Ecc nand) {f : Faults} (h : ¬(markbad ecc f die b).2 < 0) :
    isbad (markbad ecc f die b).1 b = true ∧ marker (markbad ecc f die b).1 nand b = 0 := by
  simp only [markbad] at h ⊢
  split at h
  · next hok =>
    rw [if_pos hok]
    constructor
    · rw [isbad_set, decide_eq_true rfl, Bool.or_true]
    · have hdone : f die.time = .done := done_of_statusErr (by rw [← programPage_result, hok]; decide)
      simp only [marker, badBlockTableSet, programPage, hdone, Function.update_self, Outcome.leaves,
        register, List.foldl_cons, List.foldl_nil, Load.put, Bool.false_eq_true, if_false]
      rw [overlay_self]
      exact UInt8.and_zero
  · next hne =>
    have hdone : f die.time = .done := done_of_statusErr (by rwa [← programPage_result])
    exact absurd (by rw [programPage_result, hdone]; rfl) hne

/-- One step programs and erases no retired block. -/
theorem Retired.step {e : Event} (h : Retired nand die b) (hstep : Step ecc e die die') :
    Retired nand die' b ∧ die'.cycles b = die.cycles b := by
  cases hstep with
  | call hrun =>
      have hsame : Same nand (· = b) die die' := same_call (fun c _ hc => by rw [hc]; exact h.isbad) hrun
      refine ⟨⟨h.lt, ?_, ?_⟩, hsame.cycles rfl⟩
      · rw [hsame.bbt rfl]
        exact h.isbad
      · rw [hsame.marker rfl]
        exact h.marker
  | reboot => exact ⟨retired_reboot h.lt h.marker, congrFun (scanBadBlocks_frame ..).2 b⟩
  | wear hwears => exact ⟨⟨h.lt, h.isbad, (hwears.markers b).mpr h.marker⟩, rfl⟩

theorem Retired.run {evs : List Event} (h : Retired nand die b) (hrun : Run ecc evs die die') :
    Retired nand die' b ∧ die'.cycles b = die.cycles b := by
  induction hrun with
  | nil => exact ⟨h, rfl⟩
  | cons hstep _ ih =>
      obtain ⟨hretired, hcycles⟩ := h.step hstep
      obtain ⟨hend, hcycles'⟩ := ih hretired
      exact ⟨hend, hcycles'.trans hcycles⟩

def tinyInfo : Info where
  size := 3
  writesz := 1
  sparesz := 5
  spareavail := 1
  erasesz := 1
  pagesPerBlock := 1
  eccChunksz := 1
  eccsz := 2
  eccCap := 1
  pagesPerBlock_pos := Nat.one_pos
  writesz_pos := Nat.one_pos
  eccChunksz_dvd := by decide
  eccsz_dvd := by decide
  sparesz_eq := rfl
  spareavail_pos := Nat.one_pos
  erasesz_eq := rfl
  erasesz_dvd := by decide
  blocks_le := by decide

def tripled (x : UInt8) : List UInt8 := [x, x, x]

def tripleDecode (received : List UInt8) : Option (List UInt8) :=
  (nearest tripled 1 received ((List.range 256).map UInt8.ofNat)).map fun x => [x]

theorem tripleDecode_eq {x : UInt8} {received : List UInt8} (hlen : received.length = 3)
    (hnear : distance (tripled x) received ≤ 1) : tripleDecode received = some [x] := by
  have hmem : x ∈ (List.range 256).map UInt8.ofNat :=
    List.mem_map.mpr ⟨x.toNat, List.mem_range.mpr x.toNat_lt, UInt8.ofNat_toNat⟩
  have hfar : ∀ y ∈ (List.range 256).map UInt8.ofNat, y ≠ x →
      2 * 1 < distance (tripled x) (tripled y) := by
    intro y _ hne
    have hpos : 0 < flips x y := Nat.pos_of_ne_zero fun hzero => hne (flips_eq_zero hzero).symm
    simp only [tripled, distance]
    omega
  have hfound : nearest tripled 1 received ((List.range 256).map UInt8.ofNat) = some x :=
    nearest_eq hmem (fun _ _ => hlen.symm) hfar hnear
  rw [tripleDecode, hfound, Option.map_some]

def tripleEcc : Ecc tinyInfo where
  encode data := data ++ data
  decode chunk parity := tripleDecode (chunk ++ parity)
  length_encode h := by
    rw [List.length_append, h]
    rfl
  corrects := by
    intro data chunk parity hdata hchunk hparity hnear
    obtain ⟨x, rfl⟩ := List.length_eq_one_iff.mp hdata
    exact tripleDecode_eq (by rw [List.length_append, hchunk, hparity]; rfl) hnear
  erased := by
    intro data chunk parity hchunk hparity hnear hsome
    rw [tripleDecode_eq (x := NAND_ERASED_STATE)
      (by rw [List.length_append, hchunk, hparity]; rfl) hnear] at hsome
    exact (Option.some.inj hsome).symm

/-- Every byte is erased but the markers of the first `n` blocks. -/
def tinyDie (n : Nat) : Die where
  chip := fun page col => if page < n ∧ col = 1 then 0 else NAND_ERASED_STATE
  bbt := fun _ => 0
  time := 0
  cycles := fun _ => 0

end Retired

end Plo.Devices.NandCtrl
