import Plo.Devices.SdCard

/-!
A read or a write of the SD card moves exactly the bytes it is asked for, whatever block the
range begins and ends in. Each part of the range is moved on its own: the rest of the first
block, what fills the data buffer, and the bytes behind the last whole block.
-/
namespace Plo.Devices.SdCard

/-- Inside the data buffer, and blocks inside a card of this many. -/
def Access.Fits (sizeBl : Nat) : Access → Prop
  | .transfer _ blockOffset blocks =>
    blocks * SDCARD_BLOCKLEN ≤ SDCARD_MAX_TRANSFER ∧ blockOffset + blocks ≤ sizeBl
  | .copy ofs n => ofs + n ≤ SDCARD_MAX_TRANSFER

/-- `n` bytes were moved between the card at `addr` and the buffer of the caller at `pos`. -/
structure Moves (write : Bool) (s s' : State) (pos addr n : Nat) : Prop where
  card : s'.card = if write then patch s.card addr n (fun i => s.buff (pos + i)) else s.card
  buff : s'.buff = if write then s.buff else patch s.buff pos n (fun i => s.card (addr + i))
  sizeBl : s'.sizeBl = s.sizeBl
  accesses : ∃ log, s'.accesses = s.accesses ++ log ∧ ∀ a ∈ log, a.Fits s.sizeBl.toNat

section
variable {write : Bool} {s s₁ s₂ : State} {pos addr n m : Nat}

theorem Moves.refl (write : Bool) (s : State) (pos addr : Nat) : Moves write s s pos addr 0 := by
  refine ⟨?_, ?_, rfl, [], (List.append_nil _).symm, nofun⟩
  · rw [patch_zero, ite_self]
  · rw [patch_zero, ite_self]

theorem Moves.trans (h₁ : Moves write s s₁ pos addr n)
    (h₂ : Moves write s₁ s₂ (pos + n) (addr + n) m) : Moves write s s₂ pos addr (n + m) := by
  obtain ⟨log₁, hlog₁, hfits₁⟩ := h₁.accesses
  obtain ⟨log₂, hlog₂, hfits₂⟩ := h₂.accesses
  refine ⟨?_, ?_, h₂.sizeBl.trans h₁.sizeBl, log₁ ++ log₂, ?_, ?_⟩
  · rw [h₂.card, h₁.card, h₁.buff]
    cases write with
    | true =>
        simp only [if_true, Nat.add_assoc]
        exact patch_append s.card (fun i => s.buff (pos + i)) addr n m
    | false => rfl
  · rw [h₂.buff, h₁.card, h₁.buff]
    cases write with
    | true => rfl
    | false =>
        simp only [Bool.false_eq_true, if_false, Nat.add_assoc]
        exact patch_append s.buff (fun i => s.card (addr + i)) pos n m
  · rw [hlog₂, hlog₁, List.append_assoc]
  · intro a ha
    rcases List.mem_append.mp ha with ha | ha
    · exact hfits₁ a ha
    · rw [← h₁.sizeBl]
      exact hfits₂ a ha

end

section
variable {s : State} {blockOffset blocks : Nat}

theorem transferBlocks_read (h : blocks * SDCARD_BLOCKLEN ≤ SDCARD_MAX_TRANSFER) :
    transferBlocks s .read blockOffset blocks =
      ({ s.record (.transfer .read blockOffset blocks) with
          dataBuffer := patch s.dataBuffer 0 (blocks * SDCARD_BLOCKLEN)
            (fun i => s.card (blockOffset * SDCARD_BLOCKLEN + i)) }, EOK) := by
  have hblocks : ¬blocks > SDCARD_MAX_TRANSFER / SDCARD_BLOCKLEN :=
    Nat.not_lt.mpr ((Nat.le_div_iff_mul_le (by decide)).mpr h)
  simp only [transferBlocks, if_neg hblocks]
  rfl

theorem transferBlocks_write (h : blocks * SDCARD_BLOCKLEN ≤ SDCARD_MAX_TRANSFER) :
    transferBlocks s .write blockOffset blocks =
      ({ s.record (.transfer .write blockOffset blocks) with
          card := patch s.card (blockOffset * SDCARD_BLOCKLEN) (blocks * SDCARD_BLOCKLEN)
            s.dataBuffer }, EOK) := by
  have hblocks : ¬blocks > SDCARD_MAX_TRANSFER / SDCARD_BLOCKLEN :=
    Nat.not_lt.mpr ((Nat.le_div_iff_mul_le (by decide)).mpr h)
  simp only [transferBlocks, if_neg hblocks]
  rfl

end

section
variable {s : State} {write : Bool} {pos offsBlock : Nat}

/-- A block is read, a part of it is overwritten in the data buffer, and it is written back. -/
theorem modifyBlock_moves {ofs n : Nat} (hn : ofs + n ≤ SDCARD_BLOCKLEN)
    (hin : offsBlock < s.sizeBl.toNat) :
    ∃ s', transferBlocks (copyIn (transferBlocks s .read offsBlock 1).1 ofs pos n) .write
        offsBlock 1 = (s', EOK) ∧
      Moves true s s' pos (offsBlock * SDCARD_BLOCKLEN + ofs) n := by
  have hone : 1 * SDCARD_BLOCKLEN ≤ SDCARD_MAX_TRANSFER := by decide
  have hcopy : ofs + n ≤ SDCARD_MAX_TRANSFER := Nat.le_trans hn (by decide)
  simp only [transferBlocks_read hone, transferBlocks_write hone]
  refine ⟨_, rfl, ?_, rfl, rfl, [.transfer .read offsBlock 1, .copy ofs n,
    .transfer .write offsBlock 1], ?_, ?_⟩
  · simp only [copyIn, State.record, if_true, Nat.one_mul]
    exact patch_nested hn fun i hi => by
      rw [patch_inside ⟨Nat.zero_le _, by omega⟩, Nat.sub_zero]
  · simp only [State.record, copyIn, List.append_assoc]
    rfl
  · intro a ha
    simp only [List.mem_cons, List.not_mem_nil, or_false] at ha
    rcases ha with rfl | rfl | rfl
    · exact ⟨hone, hin⟩
    · exact hcopy
    · exact ⟨hone, hin⟩

theorem transferBlocks_one_ret : (transferBlocks s .read offsBlock 1).2 = EOK :=
  congrArg Prod.snd (transferBlocks_read (by decide))

theorem readwriteHead_moves {offsRem remSize : Nat} (hrem : offsRem + remSize ≤ SDCARD_BLOCKLEN)
    (hin : offsBlock < s.sizeBl.toNat) :
    ∃ s', readwriteHead s write offsBlock offsRem remSize = (s', EOK) ∧
      Moves write s s' 0 (offsBlock * SDCARD_BLOCKLEN + offsRem) remSize := by
  have hret : ¬EOK < 0 := by decide
  cases write with
  | true =>
      simp only [readwriteHead, transferBlocks_one_ret, if_neg hret, if_true]
      exact modifyBlock_moves hrem hin
  | false =>
      have hone : 1 * SDCARD_BLOCKLEN ≤ SDCARD_MAX_TRANSFER := by decide
      have hcopy : offsRem + remSize ≤ SDCARD_MAX_TRANSFER := Nat.le_trans hrem (by decide)
      simp only [readwriteHead, transferBlocks_read hone, if_neg hret]
      refine ⟨_, rfl, rfl, ?_, rfl, [.transfer .read offsBlock 1, .copy offsRem remSize], ?_, ?_⟩
      · simp only [Bool.false_eq_true, if_false, copyOut, State.record]
        refine patch_congr fun i hi => ?_
        rw [patch_inside ⟨Nat.zero_le _, by omega⟩, Nat.sub_zero, Nat.add_assoc]
      · simp only [State.record, copyOut, List.append_assoc]
        rfl
      · intro a ha
        simp only [List.mem_cons, List.not_mem_nil, or_false] at ha
        rcases ha with rfl | rfl
        · exact ⟨hone, hin⟩
        · exact hcopy

/-- A chunk that is written, behind the read of its block if there is one. -/
theorem transferChunk_write {n : Nat} {c : Chunk} (hc : c.Right true n)
    (hin : offsBlock + c.toReadBlocks ≤ s.sizeBl.toNat) :
    ∃ s', transferChunk s true pos offsBlock c = (s', EOK) ∧
      Moves true s s' pos (offsBlock * SDCARD_BLOCKLEN) c.toRead := by
  have hret : ¬EOK < 0 := by decide
  have hinside := hc.inside
  by_cases hfirst : c.readFirst = true
  · have hblocks := (hc.readFirst hfirst).2
    rw [hblocks] at hin hinside
    have hn : 0 + c.toRead ≤ SDCARD_BLOCKLEN := by omega
    obtain ⟨s', hrun, hmoves⟩ := @modifyBlock_moves s pos offsBlock 0 c.toRead hn hin
    rw [Nat.add_zero] at hmoves
    simp only [transferChunk, if_pos hfirst, transferBlocks_one_ret, if_neg hret, if_true, hblocks,
      hrun]
    exact ⟨s', rfl, hmoves⟩
  · have hwhole := hc.written rfl (Bool.not_eq_true _ ▸ hfirst)
    simp only [transferChunk, if_neg hfirst, if_neg hret, if_true, transferBlocks_write hc.fits]
    refine ⟨_, rfl, ?_, rfl, rfl, [.copy 0 c.toRead, .transfer .write offsBlock c.toReadBlocks],
      ?_, ?_⟩
    · simp only [copyIn, State.record, if_true, ← hwhole]
      refine patch_congr fun i hi => ?_
      rw [patch_inside ⟨Nat.zero_le _, by omega⟩, Nat.sub_zero]
    · simp only [State.record, copyIn, List.append_assoc]
      rfl
    · intro a ha
      simp only [List.mem_cons, List.not_mem_nil, or_false] at ha
      rcases ha with rfl | rfl
      · have hle := Nat.le_trans hinside hc.fits
        rw [Access.Fits, Nat.zero_add]
        exact hle
      · exact ⟨hc.fits, hin⟩

/-- A chunk that is read, of which the last block may be used in part. -/
theorem transferChunk_read {n : Nat} {c : Chunk} (hc : c.Right false n)
    (hin : offsBlock + c.toReadBlocks ≤ s.sizeBl.toNat) :
    ∃ s', transferChunk s false pos offsBlock c = (s', EOK) ∧
      Moves false s s' pos (offsBlock * SDCARD_BLOCKLEN) c.toRead := by
  have hret : ¬EOK < 0 := by decide
  have hfirst : ¬c.readFirst = true := fun h => absurd (hc.readFirst h).1 nofun
  have hinside := hc.inside
  simp only [transferChunk, if_neg hfirst, if_neg hret, Bool.false_eq_true, if_false,
    transferBlocks_read hc.fits]
  refine ⟨_, rfl, rfl, ?_, rfl, [.transfer .read offsBlock c.toReadBlocks, .copy 0 c.toRead], ?_, ?_⟩
  · simp only [Bool.false_eq_true, if_false, copyOut, State.record]
    refine patch_congr fun i hi => ?_
    rw [Nat.zero_add, patch_inside ⟨Nat.zero_le _, by omega⟩, Nat.sub_zero]
  · simp only [State.record, copyOut, List.append_assoc]
    rfl
  · intro a ha
    simp only [List.mem_cons, List.not_mem_nil, or_false] at ha
    rcases ha with rfl | rfl
    · exact ⟨hc.fits, hin⟩
    · have hle := Nat.le_trans hc.inside hc.fits
      rw [Access.Fits, Nat.zero_add]
      exact hle

/-- The loop moves what is left, from the block on that it has come to. -/
theorem readwriteLoop_moves {lenRemaining : Nat}
    (hin : offsBlock * SDCARD_BLOCKLEN + lenRemaining ≤ s.sizeBl.toNat * SDCARD_BLOCKLEN) :
    ∃ s', readwriteLoop s write lenRemaining pos offsBlock = (s', EOK) ∧
      Moves write s s' pos (offsBlock * SDCARD_BLOCKLEN) lenRemaining := by
  induction lenRemaining using Nat.strong_induction_on generalizing s pos offsBlock with
  | _ lenRemaining ih =>
      rw [readwriteLoop]
      by_cases hzero : lenRemaining = 0
      · rw [dif_pos hzero, hzero]
        exact ⟨s, rfl, Moves.refl write s pos _⟩
      · rw [dif_neg hzero]
        have hc := chunk_right write hzero
        obtain ⟨c, hchunk⟩ : ∃ c, chunk write lenRemaining = c := ⟨_, rfl⟩
        rw [hchunk] at hc
        have hblocks : offsBlock + c.toReadBlocks ≤ s.sizeBl.toNat := by
          have hrounded := hc.rounded
          have hle := hc.le
          simp only [SDCARD_BLOCKLEN] at *
          omega
        obtain ⟨s₁, hrun, hmoves⟩ : ∃ s₁, transferChunk s write pos offsBlock c = (s₁, EOK) ∧
            Moves write s s₁ pos (offsBlock * SDCARD_BLOCKLEN) c.toRead := by
          cases write with
          | true => exact transferChunk_write hc hblocks
          | false => exact transferChunk_read hc hblocks
        simp only [hchunk, hrun, if_neg (by decide : ¬EOK < 0)]
        have hpos := hc.pos
        have hsum : c.toRead + (lenRemaining - c.toRead) = lenRemaining :=
          Nat.add_sub_of_le hc.le
        rcases hc.whole with hwhole | hlast
        · have hnext : (offsBlock + c.toReadBlocks) * SDCARD_BLOCKLEN =
              offsBlock * SDCARD_BLOCKLEN + c.toRead := by
            rw [Nat.add_mul, ← hwhole]
          have hin' : (offsBlock + c.toReadBlocks) * SDCARD_BLOCKLEN + (lenRemaining - c.toRead) ≤
              s₁.sizeBl.toNat * SDCARD_BLOCKLEN := by
            rw [hmoves.sizeBl, hnext, Nat.add_assoc, hsum]
            exact hin
          obtain ⟨s₂, hrun', hmoves'⟩ := ih (lenRemaining - c.toRead) (by omega) hin'
          refine ⟨s₂, hrun', ?_⟩
          rw [hnext] at hmoves'
          have htrans := hmoves.trans hmoves'
          rw [hsum] at htrans
          exact htrans
        · refine ⟨s₁, ?_, hlast ▸ hmoves⟩
          rw [hlast, Nat.sub_self, readwriteLoop, dif_pos rfl]

end

theorem readwriteLoop_zero (s : State) (write : Bool) (pos offsBlock : Nat) :
    readwriteLoop s write 0 pos offsBlock = (s, EOK) := by
  rw [readwriteLoop, dif_pos rfl]

/-- The number of blocks wraps around, but is never more than the blocks of the range. -/
theorem lenBlocks_le (len offsRem : BitVec 32) :
    ((len + offsRem + BitVec.ofNat 32 SDCARD_BLOCKLEN - 1) /
      BitVec.ofNat 32 SDCARD_BLOCKLEN).toNat * SDCARD_BLOCKLEN ≤
      len.toNat + offsRem.toNat + (SDCARD_BLOCKLEN - 1) := by
  have hsub : len + offsRem + BitVec.ofNat 32 SDCARD_BLOCKLEN - 1 = len + offsRem + 511 := by
    rw [BitVec.sub_eq_add_neg, BitVec.add_assoc]
    rfl
  have hsum : (len + offsRem + 511).toNat ≤ len.toNat + offsRem.toNat + (SDCARD_BLOCKLEN - 1) := by
    rw [BitVec.toNat_add, BitVec.toNat_add]
    exact Nat.le_trans (Nat.mod_le _ _) (Nat.add_le_add_right (Nat.mod_le _ _) _)
  rw [hsub, BitVec.toNat_udiv]
  exact Nat.le_trans (Nat.div_mul_le_self _ _) hsum

section
variable {s : State} {offs len : BitVec 32}

/-- A range inside the card passes the check. -/
theorem range_accepted (hin : offs.toNat + len.toNat ≤ s.sizeBl.toNat * SDCARD_BLOCKLEN) :
    ¬(offs / BitVec.ofNat 32 SDCARD_BLOCKLEN > s.sizeBl ∨
      offs / BitVec.ofNat 32 SDCARD_BLOCKLEN +
        (len + offs % BitVec.ofNat 32 SDCARD_BLOCKLEN + BitVec.ofNat 32 SDCARD_BLOCKLEN - 1) /
          BitVec.ofNat 32 SDCARD_BLOCKLEN > s.sizeBl) := by
  have hlen := lenBlocks_le len (offs % BitVec.ofNat 32 SDCARD_BLOCKLEN)
  obtain ⟨lenBlocks, hlenBlocks⟩ : ∃ b, (len + offs % BitVec.ofNat 32 SDCARD_BLOCKLEN +
      BitVec.ofNat 32 SDCARD_BLOCKLEN - 1) / BitVec.ofNat 32 SDCARD_BLOCKLEN = b := ⟨_, rfl⟩
  have hblock : (offs / BitVec.ofNat 32 SDCARD_BLOCKLEN).toNat = offs.toNat / SDCARD_BLOCKLEN :=
    BitVec.toNat_udiv
  have hrem : (offs % BitVec.ofNat 32 SDCARD_BLOCKLEN).toNat = offs.toNat % SDCARD_BLOCKLEN :=
    BitVec.toNat_umod
  have hoffs := offs.isLt
  have hlen' := len.isLt
  rw [hlenBlocks, hrem] at hlen
  rw [hlenBlocks, not_or, gt_iff_lt, gt_iff_lt, BitVec.lt_def, BitVec.lt_def, BitVec.toNat_add, hblock]
  simp only [SDCARD_BLOCKLEN] at *
  rw [Nat.mod_eq_of_lt (by omega)]
  omega

/-- The bytes of the range are moved, and nothing else. -/
theorem readwrite_moves (write : Bool) (hinit : s.initialized = true)
    (hin : offs.toNat + len.toNat ≤ s.sizeBl.toNat * SDCARD_BLOCKLEN) :
    ∃ s', readwrite s offs len write = (s', len.toInt) ∧
      Moves write s s' 0 offs.toNat len.toNat := by
  have hret : ¬EOK < 0 := by decide
  have hinit' : ¬s.initialized = false := by simp [hinit]
  have hblock : (offs / BitVec.ofNat 32 SDCARD_BLOCKLEN).toNat = offs.toNat / SDCARD_BLOCKLEN :=
    BitVec.toNat_udiv
  have hrem : (offs % BitVec.ofNat 32 SDCARD_BLOCKLEN).toNat = offs.toNat % SDCARD_BLOCKLEN :=
    BitVec.toNat_umod
  have hdiv := Nat.div_add_mod' offs.toNat SDCARD_BLOCKLEN
  simp only [readwrite, if_neg hinit', if_neg (range_accepted hin)]
  by_cases hzero : offs % BitVec.ofNat 32 SDCARD_BLOCKLEN = 0
  · have hstart : offs.toNat / SDCARD_BLOCKLEN * SDCARD_BLOCKLEN = offs.toNat := by
      have hrem' : offs.toNat % SDCARD_BLOCKLEN = 0 := by rw [← hrem, hzero]; rfl
      rw [hrem', Nat.add_zero] at hdiv
      exact hdiv
    obtain ⟨s', hrun, hmoves⟩ := @readwriteLoop_moves s write 0 (offs.toNat / SDCARD_BLOCKLEN)
      len.toNat (by rw [hstart]; exact hin)
    rw [hstart] at hmoves
    simp only [if_pos hzero, if_neg hret, hblock, Nat.sub_zero, hrun]
    exact ⟨s', rfl, hmoves⟩
  · have hrem' : offs.toNat % SDCARD_BLOCKLEN < SDCARD_BLOCKLEN := Nat.mod_lt _ (by decide)
    have hpos : 0 < offs.toNat % SDCARD_BLOCKLEN := by
      rw [← hrem]
      exact Nat.pos_of_ne_zero fun h => hzero (BitVec.eq_of_toNat_eq h)
    have hblock' : offs.toNat / SDCARD_BLOCKLEN < s.sizeBl.toNat := by
      simp only [SDCARD_BLOCKLEN] at *
      omega
    simp only [if_neg hzero, hblock, hrem]
    by_cases hshort : SDCARD_BLOCKLEN - offs.toNat % SDCARD_BLOCKLEN > len.toNat
    · obtain ⟨s', hrun, hmoves⟩ := @readwriteHead_moves s write (offs.toNat / SDCARD_BLOCKLEN)
        (offs.toNat % SDCARD_BLOCKLEN) len.toNat (by omega) hblock'
      rw [hdiv] at hmoves
      simp only [if_pos hshort, hrun, if_neg hret, Nat.sub_self, readwriteLoop_zero]
      exact ⟨s', rfl, hmoves⟩
    · obtain ⟨s₁, hrun, hmoves⟩ := @readwriteHead_moves s write (offs.toNat / SDCARD_BLOCKLEN)
        (offs.toNat % SDCARD_BLOCKLEN) (SDCARD_BLOCKLEN - offs.toNat % SDCARD_BLOCKLEN) (by omega)
        hblock'
      have hnext : (offs.toNat / SDCARD_BLOCKLEN + 1) * SDCARD_BLOCKLEN =
          offs.toNat + (SDCARD_BLOCKLEN - offs.toNat % SDCARD_BLOCKLEN) := by
        rw [Nat.add_mul]
        omega
      obtain ⟨s₂, hrun', hmoves'⟩ := @readwriteLoop_moves s₁ write
        (SDCARD_BLOCKLEN - offs.toNat % SDCARD_BLOCKLEN) (offs.toNat / SDCARD_BLOCKLEN + 1)
        (len.toNat - (SDCARD_BLOCKLEN - offs.toNat % SDCARD_BLOCKLEN))
        (by rw [hmoves.sizeBl, hnext]; omega)
      simp only [if_neg hshort, hrun, if_neg hret, hrun']
      refine ⟨s₂, rfl, ?_⟩
      rw [hdiv] at hmoves
      rw [hnext] at hmoves'
      have htrans := hmoves.trans (by rw [Nat.zero_add]; exact hmoves')
      rw [Nat.add_sub_of_le (Nat.le_of_not_lt hshort)] at htrans
      exact htrans

/-- A read returns the bytes of the range, and a write changes them to the data and no others.
No transfer goes over the end of the data buffer or of the card. As in the source the length
comes back as a signed word. -/
theorem sdcarddrv_bytes (hinit : s.initialized = true)
    (hin : offs.toNat + len.toNat ≤ s.sizeBl.toNat * SDCARD_BLOCKLEN) :
    (∃ s', sdcarddrvRead s offs len = (s', len.toInt) ∧ s'.card = s.card ∧
        s'.buff = patch s.buff 0 len.toNat (fun i => s.card (offs.toNat + i)) ∧
        ∃ log, s'.accesses = s.accesses ++ log ∧ ∀ a ∈ log, a.Fits s.sizeBl.toNat) ∧
      (∃ s', sdcarddrvWrite s offs len = (s', len.toInt) ∧ s'.buff = s.buff ∧
        s'.card = patch s.card offs.toNat len.toNat s.buff ∧
        ∃ log, s'.accesses = s.accesses ++ log ∧ ∀ a ∈ log, a.Fits s.sizeBl.toNat) ∧
      SDCARD_MAX_TRANSFER % SDCARD_BLOCKLEN = 0 := by
  obtain ⟨s₁, hread, hmoves₁⟩ := readwrite_moves false hinit hin
  obtain ⟨s₂, hwrite, hmoves₂⟩ := readwrite_moves true hinit hin
  refine ⟨⟨s₁, hread, hmoves₁.card, hmoves₁.buff, hmoves₁.accesses⟩,
    ⟨s₂, hwrite, hmoves₂.buff, ?_, hmoves₂.accesses⟩, rfl⟩
  have hcard := hmoves₂.card
  simp only [if_true, Nat.zero_add] at hcard
  exact hcard

/-- A card of two blocks that has not been used. -/
def twoBlocks : State where
  card := fun _ => 0xff
  sizeBl := 2
  initialized := true
  dataBuffer := fun _ => 0
  buff := UInt8.ofNat
  accesses := []

/-- Two bytes at the border of the blocks. -/
theorem sdcarddrv_bytes_border :
    (∃ s', sdcarddrvRead twoBlocks 511 2 = (s', (2 : BitVec 32).toInt) ∧
        s'.card = twoBlocks.card ∧
        s'.buff = patch twoBlocks.buff 0 2 (fun i => twoBlocks.card (511 + i)) ∧
        ∃ log, s'.accesses = twoBlocks.accesses ++ log ∧ ∀ a ∈ log, a.Fits 2) ∧
      (∃ s', sdcarddrvWrite twoBlocks 511 2 = (s', (2 : BitVec 32).toInt) ∧
        s'.buff = twoBlocks.buff ∧ s'.card = patch twoBlocks.card 511 2 twoBlocks.buff ∧
        ∃ log, s'.accesses = twoBlocks.accesses ++ log ∧ ∀ a ∈ log, a.Fits 2) ∧
      SDCARD_MAX_TRANSFER % SDCARD_BLOCKLEN = 0 :=
  sdcarddrv_bytes rfl (by decide)

end

end Plo.Devices.SdCard
