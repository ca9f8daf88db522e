import Plo.Devices.DiskBiosWindow

/-!
What one `diskbios_write` does. Its blocks come one after the other; inside a
segment they extend the window, and behind the end of a segment the window is
written back, so that it has to be clean by then.
-/
namespace Plo.Devices.DiskBios

section Round
variable {geo : Nat → Geo} {dev : DiskCommon} {content : Nat → Nat → UInt8} {dn offs : Nat}

/-- The byte is in the window and the cache has it right. -/
def Right (geo : Nat → Geo) (dev : DiskCommon) (content : Nat → Nat → UInt8) (dn a : Nat) : Prop :=
  InWindow geo dev dn a ∧ cached dev (windowBase geo dev) a = content dn a

/-- Whenever a write of the blocks up to `eb` writes the window back, the window is
clean. That happens at the first block, and when the segment of the first block
is left; by then the bytes from `offs` on are those of the write. -/
structure WriteFits (geo : Nat → Geo) (dev : DiskCommon) (content : Nat → Nat → UInt8)
    (dn offs eb : Nat) : Prop where
  flush : FlushFits geo dev content dn (startBlock offs)
  cross : (geo dn).segBase BLOCKS_WCACHE eb ≠ (geo dn).segBase BLOCKS_WCACHE (startBlock offs) →
    ∀ a, a < offs →
      startBlock offs * SIZE_BLOCK ≤ a ∨
        (¬missesWcache geo dev dn (startBlock offs) ∧ InWindow geo dev dn a) →
      cached dev ((geo dn).segBase BLOCKS_WCACHE (startBlock offs)) a = content dn a

theorem startBlock_add_mod (offs : Nat) :
    startBlock offs * SIZE_BLOCK + offs % SIZE_BLOCK = offs := by
  rw [startBlock, Nat.mul_comm]
  exact Nat.div_add_mod _ _

variable {chunk : List UInt8}

theorem writeBlock_lo {sb ofs a : Nat} {dn' : Nat}
    (hin : InWindow geo (writeBlock geo dev dn sb ofs chunk) dn' a) :
    (geo dn).segBase BLOCKS_WCACHE sb * SIZE_BLOCK ≤ a := by
  have hbase : windowBase geo (writeBlock geo dev dn sb ofs chunk) =
      (geo dn).segBase BLOCKS_WCACHE sb := rfl
  have hlo := hin.2.1
  rw [hbase, Nat.add_mul] at hlo
  omega

/-- A round gets its bytes right, and leaves right what was in the window. -/
theorem writeBlock_right {a : Nat}
    (hin : InWindow geo (writeBlock geo dev dn (startBlock offs) (offs % SIZE_BLOCK) chunk) dn a)
    (ha : (offs ≤ a ∧ a < offs + chunk.length) ∨
      (¬missesWcache geo dev dn (startBlock offs) ∧ Right geo dev content dn a)) :
    Right geo (writeBlock geo dev dn (startBlock offs) (offs % SIZE_BLOCK) chunk)
      (put content dn offs chunk) dn a := by
  refine ⟨hin, ?_⟩
  rw [put_self]
  refine (cached_writeBlock (writeBlock_lo hin)).trans ?_
  rw [startBlock_add_mod]
  cases ha with
  | inl hrange => exact overlay_inside _ _ hrange.1 hrange.2
  | inr hold =>
      obtain ⟨hready, hold, hright⟩ := hold
      have hne : dev.lwb ≠ dev.lwe := fun hnone => not_inWindow_of_eq hnone dn a hold
      rw [windowBase_of_not_misses hready hne] at hright
      exact overlay_congr _ _ hright

/-- Up to the end of the block of a round that is followed by another one in the
call, the window is clean when the call leaves the segment. -/
theorem WriteFits.right {eb : Nat} (hw : WriteFits geo dev content dn offs eb)
    (hlen : chunk.length = SIZE_BLOCK - offs % SIZE_BLOCK)
    (hcross : (geo dn).segBase BLOCKS_WCACHE eb ≠ (geo dn).segBase BLOCKS_WCACHE (startBlock offs))
    (h : Holds geo dev content) {a : Nat}
    (hin : InWindow geo (writeBlock geo dev dn (startBlock offs) (offs % SIZE_BLOCK) chunk) dn a)
    (ha : a < (startBlock offs + 1) * SIZE_BLOCK) :
    cached (writeBlock geo dev dn (startBlock offs) (offs % SIZE_BLOCK) chunk)
        ((geo dn).segBase BLOCKS_WCACHE (startBlock offs)) a =
      put content dn offs chunk dn a := by
  have hofs : offs % SIZE_BLOCK < SIZE_BLOCK := Nat.mod_lt _ (by decide)
  have hoffs := startBlock_add_mod offs
  rw [put_self, cached_writeBlock (writeBlock_lo hin), hoffs]
  by_cases hlt : a < offs
  · rw [inWindow_writeBlock h hw.flush] at hin
    refine overlay_congr _ _ (hw.cross hcross a hlt ?_)
    cases hin with
    | inl hold => exact Or.inr hold
    | inr hblock => exact Or.inl hblock.2.1
  · rw [Nat.add_mul] at ha
    exact overlay_inside _ _ (by omega) (by omega)

/-- When the next block is in another segment, the window ends with this one. -/
theorem inWindow_lt_of_last {sb ofs a : Nat} (hfits : FlushFits geo dev content dn sb)
    (h : Holds geo dev content)
    (hlast : (geo dn).sec sb % BLOCKS_WCACHE + 1 = BLOCKS_WCACHE ∨
      (geo dn).sec sb + 1 = (geo dn).secs)
    (hin : InWindow geo (writeBlock geo dev dn sb ofs chunk) dn a) : a < (sb + 1) * SIZE_BLOCK := by
  obtain ⟨_, _, hbound, htrack⟩ := writeBlock_bounds h hfits ofs chunk
  have hsb := (geo dn).segBase_add BLOCKS_WCACHE sb
  have hsum := Geo.segment_add_mod BLOCKS_WCACHE ((geo dn).sec sb)
  have hle : (geo dn).segBase BLOCKS_WCACHE sb + (writeBlock geo dev dn sb ofs chunk).lwe ≤ sb + 1 := by
    omega
  exact Nat.lt_of_lt_of_le hin.2.2 (Nat.mul_le_mul_right SIZE_BLOCK hle)

/-- The round leaves the window where the next block of the segment continues it. -/
theorem writeBlock_ready {sb ofs : Nat} (hfits : FlushFits geo dev content dn sb)
    (h : Holds geo dev content)
    (hsame : (geo dn).cyl (sb + 1) = (geo dn).cyl sb ∧ (geo dn).head (sb + 1) = (geo dn).head sb ∧
      segment BLOCKS_WCACHE ((geo dn).sec (sb + 1)) = segment BLOCKS_WCACHE ((geo dn).sec sb) ∧
      (geo dn).segBase BLOCKS_WCACHE (sb + 1) = (geo dn).segBase BLOCKS_WCACHE sb) :
    ¬missesWcache geo (writeBlock geo dev dn sb ofs chunk) dn (sb + 1) := by
  obtain ⟨hlo, hhi, _, _⟩ := writeBlock_bounds h hfits ofs chunk
  obtain ⟨hc, hh, hp, hbase⟩ := hsame
  have hsb := (geo dn).segBase_add BLOCKS_WCACHE sb
  have hsb' := (geo dn).segBase_add BLOCKS_WCACHE (sb + 1)
  rw [hbase] at hsb'
  intro hmiss
  obtain ⟨_, hmiss⟩ := hmiss
  rw [hc, hh, hp] at hmiss
  simp only [not_true_eq_false, ne_eq, writeBlock, extendWindow, false_or] at hmiss
  simp only [writeBlock, extendWindow] at hlo hhi
  omega

/-- The next round of a call fits as well. -/
theorem WriteFits.next {eb : Nat} (hw : WriteFits geo dev content dn offs eb)
    (h : Holds geo dev content) (hlen : chunk.length = SIZE_BLOCK - offs % SIZE_BLOCK)
    (hmore : startBlock offs + 1 ≤ eb) :
    WriteFits geo (writeBlock geo dev dn (startBlock offs) (offs % SIZE_BLOCK) chunk)
      (put content dn offs chunk) dn ((startBlock offs + 1) * SIZE_BLOCK) eb := by
  have hstart : startBlock ((startBlock offs + 1) * SIZE_BLOCK) = startBlock offs + 1 :=
    Nat.mul_div_cancel _ (by decide)
  have hmono := (geo dn).segBase_mono BLOCKS_WCACHE (by decide) (startBlock offs + 1)
    (eb - (startBlock offs + 1))
  rw [Nat.add_sub_cancel' hmore] at hmono
  have hle := (geo dn).segBase_le BLOCKS_WCACHE (startBlock offs)
  have hsucc := (geo dn).segBase_succ BLOCKS_WCACHE (startBlock offs) (by decide)
  constructor
  · -- the window is written back where the segment ends
    rw [hstart]
    intro hmiss
    refine ⟨rfl, fun a hin => ?_⟩
    cases hsucc with
    | inl hsame => exact absurd hmiss (writeBlock_ready hw.flush h hsame)
    | inr hnext =>
        exact hw.right hlen (by omega) h hin (inWindow_lt_of_last hw.flush h hnext.2 hin)
  · rw [hstart]
    intro hcross a ha hin
    cases hin with
    | inl hge => exact absurd ha (Nat.not_lt.mpr hge)
    | inr hin =>
        obtain ⟨hready, hin⟩ := hin
        have hne := fun hnone => not_inWindow_of_eq hnone dn a hin
        have hbase := windowBase_of_not_misses hready hne
        have hsame : (geo dn).segBase BLOCKS_WCACHE (startBlock offs) =
            (geo dn).segBase BLOCKS_WCACHE (startBlock offs + 1) := hbase
        rw [← hsame] at hcross ⊢
        exact hw.right hlen hcross h hin ha

end Round

/-- What a call that writes data up to the block `eb` leaves behind. -/
structure Wrote (geo : Nat → Geo) (dev : DiskCommon) (content : Nat → Nat → UInt8) (dn offs : Nat)
    (data : List UInt8) (eb : Nat) (dev' : DiskCommon) : Prop where
  holds : Holds geo dev' (put content dn offs data)
  lwdn : dev'.lwdn = dn
  base : windowBase geo dev' = (geo dn).segBase BLOCKS_WCACHE eb
  /-- The blocks of the call are all that the window may have got. -/
  window : ∀ a, InWindow geo dev' dn a →
    (startBlock offs * SIZE_BLOCK ≤ a ∧ a < (eb + 1) * SIZE_BLOCK) ∨
      (¬missesWcache geo dev dn (startBlock offs) ∧ InWindow geo dev dn a)
  right : ∀ a, InWindow geo dev' dn a →
    (offs ≤ a ∧ a < offs + data.length) ∨
      (¬missesWcache geo dev dn (startBlock offs) ∧ Right geo dev content dn a) →
    Right geo dev' (put content dn offs data) dn a

section Loop
variable {geo : Nat → Geo} {dn : Nat}

/-- The last round. -/
theorem wrote_last {dev : DiskCommon} {content : Nat → Nat → UInt8} {offs : Nat} {data : List UInt8}
    (h : Holds geo dev content) (hw : WriteFits geo dev content dn offs (startBlock offs))
    (hlen : offs % SIZE_BLOCK + data.length ≤ SIZE_BLOCK) :
    Wrote geo dev content dn offs data (startBlock offs)
      (writeBlock geo dev dn (startBlock offs) (offs % SIZE_BLOCK) data) where
  holds := by
    have hholds := h.writeBlock hw.flush hlen
    rw [startBlock_add_mod] at hholds
    exact hholds
  lwdn := rfl
  base := rfl
  window := fun a hin => by
    rw [inWindow_writeBlock h hw.flush] at hin
    exact hin.symm.imp_left fun hblock => hblock.2
  right := fun a hin ha => writeBlock_right hin ha

/-- What is in the last window and was in the one after the round is before the next
block, unless the window still takes the next block. -/
theorem ready_of_inWindow {dev dev' : DiskCommon} {content : Nat → Nat → UInt8}
    {offs eb ofs a : Nat} {data : List UInt8} (h : Holds geo dev content)
    (hw : WriteFits geo dev content dn offs eb) (hmore : startBlock offs + 1 ≤ eb)
    (hbase : windowBase geo dev' = (geo dn).segBase BLOCKS_WCACHE eb)
    (hin : InWindow geo dev' dn a)
    (hround : InWindow geo (writeBlock geo dev dn (startBlock offs) ofs data) dn a) :
    ¬missesWcache geo (writeBlock geo dev dn (startBlock offs) ofs data) dn
      (startBlock offs + 1) := by
  have hmono := (geo dn).segBase_mono BLOCKS_WCACHE (by decide) (startBlock offs + 1)
    (eb - (startBlock offs + 1))
  rw [Nat.add_sub_cancel' hmore] at hmono
  intro hmiss
  cases (geo dn).segBase_succ BLOCKS_WCACHE (startBlock offs) (by decide) with
  | inl hsame => exact writeBlock_ready hw.flush h hsame hmiss
  | inr hlast =>
      have hlt := inWindow_lt_of_last hw.flush h hlast.2 hround
      have hge : (startBlock offs + 1) * SIZE_BLOCK ≤ windowBase geo dev' * SIZE_BLOCK := by
        rw [hbase]
        exact Nat.mul_le_mul_right _ (by omega)
      have hlo := hin.2.1
      rw [Nat.add_mul (windowBase geo dev')] at hlo
      omega

/-- A round, and then the rest of the call. -/
theorem wrote_next {dev dev' : DiskCommon} {content : Nat → Nat → UInt8} {offs eb : Nat}
    {data : List UInt8} (h : Holds geo dev content) (hw : WriteFits geo dev content dn offs eb)
    (hmore : startBlock offs + 1 ≤ eb) (hlen : SIZE_BLOCK - offs % SIZE_BLOCK ≤ data.length)
    (hrest : Wrote geo (writeBlock geo dev dn (startBlock offs) (offs % SIZE_BLOCK)
        (data.take (SIZE_BLOCK - offs % SIZE_BLOCK)))
      (put content dn offs (data.take (SIZE_BLOCK - offs % SIZE_BLOCK))) dn
      ((startBlock offs + 1) * SIZE_BLOCK) (data.drop (SIZE_BLOCK - offs % SIZE_BLOCK)) eb dev') :
    Wrote geo dev content dn offs data eb dev' := by
  have hofs : offs % SIZE_BLOCK < SIZE_BLOCK := Nat.mod_lt _ (by decide)
  have hoffs := startBlock_add_mod offs
  have hnext : (startBlock offs + 1) * SIZE_BLOCK = offs + (SIZE_BLOCK - offs % SIZE_BLOCK) := by
    rw [Nat.add_mul]
    omega
  have hstart : startBlock ((startBlock offs + 1) * SIZE_BLOCK) = startBlock offs + 1 :=
    Nat.mul_div_cancel _ (by decide)
  have htake : (data.take (SIZE_BLOCK - offs % SIZE_BLOCK)).length = SIZE_BLOCK - offs % SIZE_BLOCK :=
    List.length_take_of_le hlen
  have hput : put (put content dn offs (data.take (SIZE_BLOCK - offs % SIZE_BLOCK))) dn
      ((startBlock offs + 1) * SIZE_BLOCK) (data.drop (SIZE_BLOCK - offs % SIZE_BLOCK)) =
      put content dn offs data := by
    rw [hnext, put_take_drop _ _ _ hlen]
  refine ⟨by rw [← hput]; exact hrest.holds, hrest.lwdn, hrest.base, fun a hin => ?_,
    fun a hin ha => ?_⟩
  · cases hrest.window a hin with
    | inl hblocks =>
        rw [hstart] at hblocks
        have hle : startBlock offs * SIZE_BLOCK ≤ (startBlock offs + 1) * SIZE_BLOCK :=
          Nat.mul_le_mul_right _ (Nat.le_succ _)
        exact Or.inl ⟨by omega, hblocks.2⟩
    | inr hround =>
        have hround := hround.2
        rw [inWindow_writeBlock h hw.flush] at hround
        cases hround with
        | inl hold => exact Or.inr hold
        | inr hblock =>
            have hle : (startBlock offs + 1) * SIZE_BLOCK ≤ (eb + 1) * SIZE_BLOCK :=
              Nat.mul_le_mul_right _ (by omega)
            exact Or.inl ⟨hblock.2.1, by omega⟩
  · have hright := hrest.right a hin
    rw [hput, hstart, List.length_drop, hnext] at hright
    by_cases hlate : offs + (SIZE_BLOCK - offs % SIZE_BLOCK) ≤ a ∧ a < offs + data.length
    · exact hright (Or.inl ⟨hlate.1, by omega⟩)
    · have hround : InWindow geo (writeBlock geo dev dn (startBlock offs) (offs % SIZE_BLOCK)
          (data.take (SIZE_BLOCK - offs % SIZE_BLOCK))) dn a := by
        rw [inWindow_writeBlock h hw.flush]
        cases ha with
        | inl hrange => exact Or.inr ⟨rfl, by omega, by rw [hnext]; omega⟩
        | inr hold => exact Or.inl ⟨hold.1, hold.2.1⟩
      have hkept := ready_of_inWindow h hw hmore hrest.base hin hround
      refine hright (Or.inr ⟨hkept, writeBlock_right hround ?_⟩)
      rw [htake]
      exact ha.imp_left fun hrange => ⟨hrange.1, by omega⟩

/-- Where the data of a call ends, from the number of blocks. -/
theorem end_bounds {offs len k : Nat} (hlast : (offs + len - 1) / SIZE_BLOCK = startBlock offs + k) :
    startBlock offs * SIZE_BLOCK + k * SIZE_BLOCK ≤ offs + len - 1 ∧
      offs + len - 1 < startBlock offs * SIZE_BLOCK + k * SIZE_BLOCK + SIZE_BLOCK := by
  have hdiv := Nat.div_add_mod (offs + len - 1) SIZE_BLOCK
  have hmod := Nat.mod_lt (offs + len - 1) (show 0 < SIZE_BLOCK by decide)
  rw [hlast, Nat.mul_comm, Nat.add_mul] at hdiv
  omega

theorem Holds.writeLoop (k : Nat) {dev : DiskCommon} {content : Nat → Nat → UInt8} {offs : Nat}
    {data : List UInt8} (n : Nat) (h : Holds geo dev content)
    (hw : WriteFits geo dev content dn offs (startBlock offs + k)) (hne : data ≠ [])
    (hlast : (offs + data.length - 1) / SIZE_BLOCK = startBlock offs + k)
    (hfits : offs + data.length ≤ 2 ^ 32) :
    ∃ dev', writeLoop geo dn (k + 1) dev (startBlock offs) offs data n = (dev', n + data.length) ∧
      Wrote geo dev content dn offs data (startBlock offs + k) dev' := by
  induction k generalizing dev content offs data n with
  | zero =>
      have hoffs := startBlock_add_mod offs
      have hbounds := end_bounds hlast
      refine ⟨_, rfl, ?_⟩
      simp only [if_true, List.take_length]
      exact wrote_last h hw (by omega)
  | succ k ih =>
      have hofs : offs % SIZE_BLOCK < SIZE_BLOCK := Nat.mod_lt _ (by decide)
      have hoffs := startBlock_add_mod offs
      have hbounds := end_bounds hlast
      rw [Nat.add_mul k] at hbounds
      have hlen : SIZE_BLOCK - offs % SIZE_BLOCK < data.length := by omega
      have hnext : (offs + (SIZE_BLOCK - offs % SIZE_BLOCK)) % 2 ^ 32 =
          (startBlock offs + 1) * SIZE_BLOCK := by
        rw [Nat.mod_eq_of_lt (by omega), Nat.add_mul]
        omega
      have hstart : startBlock ((startBlock offs + 1) * SIZE_BLOCK) = startBlock offs + 1 :=
        Nat.mul_div_cancel _ (by decide)
      have hmul : (startBlock offs + 1) * SIZE_BLOCK = startBlock offs * SIZE_BLOCK + SIZE_BLOCK := by
        rw [Nat.add_mul, Nat.one_mul]
      have hend : (startBlock offs + 1) * SIZE_BLOCK +
          (data.length - (SIZE_BLOCK - offs % SIZE_BLOCK)) = offs + data.length := by omega
      have hcount : n + (SIZE_BLOCK - offs % SIZE_BLOCK) +
          (data.length - (SIZE_BLOCK - offs % SIZE_BLOCK)) = n + data.length := by omega
      have htake := List.length_take_of_le (Nat.le_of_lt hlen)
      have hround := h.writeBlock hw.flush
        (show offs % SIZE_BLOCK + (data.take (SIZE_BLOCK - offs % SIZE_BLOCK)).length ≤ SIZE_BLOCK by
          omega)
      rw [hoffs] at hround
      have hsum : startBlock ((startBlock offs + 1) * SIZE_BLOCK) + k = startBlock offs + (k + 1) := by
        omega
      obtain ⟨dev', hloop, hrest⟩ := @ih _ _ ((startBlock offs + 1) * SIZE_BLOCK)
        (data.drop (SIZE_BLOCK - offs % SIZE_BLOCK)) (n + (SIZE_BLOCK - offs % SIZE_BLOCK)) hround
        (by rw [hsum]; exact hw.next h htake (by omega))
        (List.ne_nil_of_length_pos (by rw [List.length_drop]; omega))
        (by rw [List.length_drop, hend, hlast, hsum])
        (by rw [List.length_drop, hend]; exact hfits)
      rw [hsum] at hrest
      refine ⟨dev', ?_, wrote_next h hw (by omega) (Nat.le_of_lt hlen) hrest⟩
      rw [DiskBios.writeLoop, if_neg (Nat.succ_ne_zero k), hnext]
      rw [hstart, List.length_drop, hcount] at hloop
      exact hloop

end Loop

section Calls
variable {geo : Nat → Geo} {dev : DiskCommon} {content : Nat → Nat → UInt8} {minor dn : Nat}

theorem endBlock_eq {offs len : Nat} (hfits : offs + len ≤ 2 ^ 32) :
    endBlock offs len = (offs + len - 1) / SIZE_BLOCK := by
  rw [endBlock, Nat.mod_eq_of_lt (by omega)]

theorem startBlock_le_endBlock {offs len : Nat} (hpos : 0 < len) (hfits : offs + len ≤ 2 ^ 32) :
    startBlock offs ≤ endBlock offs len := by
  rw [endBlock_eq hfits]
  exact Nat.div_le_div_right (by omega)

/-- A call that fits writes all of its data. -/
theorem Holds.diskbiosWrite {offs : Nat} {data : List UInt8} (h : Holds geo dev content)
    (hget : diskbiosGet minor = some dn) (hne : data ≠ []) (hfits : offs + data.length ≤ 2 ^ 32)
    (hw : WriteFits geo dev content dn offs (endBlock offs data.length)) :
    ∃ dev', diskbiosWrite geo dev minor offs data = (dev', (data.length : Int)) ∧
      Wrote geo dev content dn offs data (endBlock offs data.length) dev' := by
  have hpos := List.length_pos_iff.mpr hne
  have hle := startBlock_le_endBlock hpos hfits
  obtain ⟨k, hk⟩ := Nat.exists_eq_add_of_le hle
  have hcount : startBlock offs + k + 1 - startBlock offs = k + 1 := by omega
  rw [hk] at hw ⊢
  obtain ⟨dev', hloop, hwrote⟩ := h.writeLoop k 0 hw hne (by rw [← hk, endBlock_eq hfits]) hfits
  refine ⟨dev', ?_, hwrote⟩
  rw [DiskBios.diskbiosWrite, hget]
  simp only [if_neg (Nat.ne_of_gt hpos), hk, hcount, hloop, Nat.zero_add]

theorem sync_eq (hget : diskbiosGet minor = some dn) : (diskbiosSync geo dev minor).1 =
    if dev.lwb ≠ dev.lwe ∧ dn = dev.lwdn then flush geo dev dn else dev := by
  rw [diskbiosSync, hget]
  simp only
  split <;> rfl

/-- Synchronising the disk of a clean window brings the disks up to date. -/
theorem Holds.sync (h : Holds geo dev content) (hclean : Clean geo dev content)
    (hget : diskbiosGet minor = some dn) :
    Holds geo (diskbiosSync geo dev minor).1 content ∧
      Clean geo (diskbiosSync geo dev minor).1 content ∧
      (dev.lwb = dev.lwe ∨ dn = dev.lwdn →
        (diskbiosSync geo dev minor).1.lwb = (diskbiosSync geo dev minor).1.lwe) := by
  rw [sync_eq hget]
  split
  · next hsync =>
    rw [hsync.2]
    exact ⟨h.flush hclean, fun a hin => absurd hin (not_inWindow_of_eq rfl _ a), fun _ => rfl⟩
  · next hother =>
    refine ⟨h, hclean, fun hdone => ?_⟩
    cases hdone with
    | inl hnone => exact hnone
    | inr hdn =>
        by_contra hne
        exact hother ⟨hne, hdn⟩

end Calls

end Plo.Devices.DiskBios
