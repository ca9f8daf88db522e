import Plo.Devices.FlashZynqRegions

/-!
Sequences of calls of the flash driver for Zynq against a plain array of bytes. A
write fits a state when the search finds the regions it goes into and, where it
goes into the buffered sector, it starts at the position the driver has kept. In
a run of fitting writes the chip holds the array after a synchronisation.
-/
namespace Plo.Devices.Zynq
variable {cfi : FlashCfi}

section Geometry

/-- Where a sector starts on the chip. -/
def FlashCfi.base (cfi : FlashCfi) (regID sectID : Nat) : Nat :=
  flashdrvRegStart cfi regID + sectID * cfi.sectSz regID

structure InRegion (cfi : FlashCfi) (id a : Nat) : Prop where
  lt : id < cfi.regs.length
  start : flashdrvRegStart cfi id ≤ a
  stop : a < flashdrvRegStart cfi (id + 1)

/-- The search answers with the region the offset lies in. -/
def Found (cfi : FlashCfi) (a : Nat) : Prop :=
  ∃ id, flashdrvRegionFind cfi a = some id ∧ InRegion cfi id a

/-- A sector of some region ends or starts at the offset. -/
def AtBorder (cfi : FlashCfi) (a : Nat) : Prop :=
  ∃ id sect, id < cfi.regs.length ∧ a = cfi.base id sect ∧ a ≤ flashdrvRegStart cfi (id + 1)

theorem FlashCfi.sectSz_get {id : Nat} (h : id < cfi.regs.length) :
    cfi.sectSz id = (cfi.regs.get ⟨id, h⟩).sectSz := by
  rw [FlashCfi.sectSz, List.getD_eq_getElem _ _ h]
  rfl

theorem FlashCfi.hasEraseCmd {id : Nat} (h : id < cfi.regs.length) :
    hasEraseCmd (cfi.sectSz id) = true := by
  rw [cfi.sectSz_get h]
  exact cfi.sectSz_eq _ (List.get_mem _ _)

theorem FlashCfi.sectSz_pos {id : Nat} (h : id < cfi.regs.length) : 0 < cfi.sectSz id :=
  hasEraseCmd_pos (cfi.hasEraseCmd h)

theorem FlashCfi.sectSz_pow {id : Nat} (h : id < cfi.regs.length) :
    ∃ k, 12 ≤ k ∧ k ≤ 16 ∧ cfi.sectSz id = 2 ^ k := by
  have hcmd := cfi.hasEraseCmd h
  simp only [Zynq.hasEraseCmd, Bool.or_eq_true, beq_iff_eq] at hcmd
  cases hcmd with
  | inl hsz => exact ⟨12, by decide, by decide, hsz⟩
  | inr hsz => exact ⟨16, by decide, by decide, hsz⟩

theorem FlashCfi.pageSz_dvd {id : Nat} (h : id < cfi.regs.length) :
    cfi.pageSz ∣ cfi.sectSz id := by
  obtain ⟨k, hk, _, hsz⟩ := cfi.sectSz_pow h
  rw [hsz]
  exact Nat.pow_dvd_pow 2 (Nat.le_trans cfi.pageSize_le hk)

theorem regStart_succ {id : Nat} (h : id < cfi.regs.length) :
    ∃ n, flashdrvRegStart cfi (id + 1) = flashdrvRegStart cfi id + cfi.sectSz id * n := by
  refine ⟨(cfi.regs.get ⟨id, h⟩).count + 1, ?_⟩
  rw [flashdrvRegStart, List.take_add_one, List.getElem?_eq_getElem h, Option.toList_some,
    List.map_append, List.sum_append, cfi.sectSz_get h]
  simp [flashdrvRegStart, CfiRegion.regionSz]

theorem regStart_le (cfi : FlashCfi) (id : Nat) : flashdrvRegStart cfi id ≤ cfi.flashSz := by
  have hsum := congrArg (fun regs : List CfiRegion => (regs.map CfiRegion.regionSz).sum)
    (List.take_append_drop id cfi.regs)
  simp only [List.map_append, List.sum_append, cfi.regs_sum] at hsum
  rw [flashdrvRegStart, FlashCfi.flashSz]
  omega

theorem FlashCfi.flashSz_lt (cfi : FlashCfi) : cfi.flashSz < 2 ^ 32 :=
  Nat.pow_lt_pow_right (by decide) cfi.chipSize_lt

theorem regionFindFrom_lt {offs : Nat} (regs : List CfiRegion) {start i id : Nat}
    (h : regionFindFrom offs regs start i = some id) : id < i + regs.length := by
  induction regs generalizing start i with
  | nil => exact absurd h (by simp [regionFindFrom])
  | cons r regs ih =>
      rw [regionFindFrom] at h
      rw [List.length_cons]
      split at h
      · have hid : i = id := Option.some.inj h
        omega
      · have hlt := ih h
        omega

theorem regionFind_lt {offs id : Nat} (h : flashdrvRegionFind cfi offs = some id) :
    id < cfi.regs.length := by
  have hlt := regionFindFrom_lt cfi.regs h
  omega

/-- The search is right on a chip of one or two regions, where the second one does
start at the size of the first. -/
theorem found_of_le_two (h : cfi.regs.length ≤ 2) {a : Nat} (ha : a < cfi.flashSz) :
    Found cfi a := by
  have hsum := cfi.regs_sum
  rw [← FlashCfi.flashSz] at hsum
  rw [Found, flashdrvRegionFind]
  cases hregs : cfi.regs with
  | nil =>
      rw [hregs, List.map_nil, List.sum_nil] at hsum
      omega
  | cons r regs =>
      by_cases hin : a < r.regionSz
      · refine ⟨0, ?_, ?_, ?_, ?_⟩
        · rw [regionFindFrom, if_pos (by omega)]
        · rw [hregs, List.length_cons]
          omega
        · rw [flashdrvRegStart, List.take_zero, List.map_nil, List.sum_nil]
          omega
        · rw [flashdrvRegStart, hregs]
          simpa using hin
      · cases hrest : regs with
        | nil =>
            rw [hregs, hrest, List.map_cons, List.map_nil, List.sum_cons, List.sum_nil] at hsum
            omega
        | cons r' regs =>
            rw [hregs, hrest, List.length_cons, List.length_cons] at h
            have hnil : regs = [] := List.eq_nil_of_length_eq_zero (by omega)
            rw [hregs, hrest, hnil, List.map_cons, List.map_cons, List.map_nil, List.sum_cons,
              List.sum_cons, List.sum_nil] at hsum
            refine ⟨1, ?_, ?_, ?_, ?_⟩
            · rw [regionFindFrom, if_neg (by omega), regionFindFrom, if_pos (by omega)]
            · rw [hregs, hrest, List.length_cons, List.length_cons]
              omega
            · rw [flashdrvRegStart, hregs]
              simpa using hin
            · rw [flashdrvRegStart, hregs, hrest, hnil]
              simp only [List.take_succ_cons, List.take_nil, List.map_cons, List.map_nil,
                List.sum_cons, List.sum_nil]
              omega

variable {id a : Nat}

theorem InRegion.lt_flashSz (h : InRegion cfi id a) : a < cfi.flashSz :=
  Nat.lt_of_lt_of_le h.stop (regStart_le cfi (id + 1))

theorem InRegion.regionOfs_eq (h : InRegion cfi id a) :
    regionOfs cfi a id = a - flashdrvRegStart cfi id := by
  have hlt := h.lt_flashSz
  have htop := cfi.flashSz_lt
  have hstart := h.start
  have hsum : a + 2 ^ 32 - flashdrvRegStart cfi id = a - flashdrvRegStart cfi id + 2 ^ 32 := by
    omega
  rw [regionOfs, hsum, Nat.add_mod_right, Nat.mod_eq_of_lt (by omega)]

/-- The sector of an offset is a piece of its region around the offset. -/
theorem InRegion.sector (h : InRegion cfi id a) :
    cfi.base id (sectorOf cfi a id) + (regionOfs cfi a id - sectorOf cfi a id * cfi.sectSz id) = a ∧
      regionOfs cfi a id - sectorOf cfi a id * cfi.sectSz id < cfi.sectSz id ∧
      cfi.base id (sectorOf cfi a id) + cfi.sectSz id ≤ flashdrvRegStart cfi (id + 1) := by
  have hpos := FlashCfi.sectSz_pos h.lt
  have hstart := h.start
  have hstop := h.stop
  have hofs := h.regionOfs_eq
  have hdiv := Nat.div_add_mod' (regionOfs cfi a id) (cfi.sectSz id)
  have hmod := Nat.mod_lt (regionOfs cfi a id) hpos
  obtain ⟨n, hn⟩ := regStart_succ h.lt
  have hend := add_le_of_dvd_of_lt (Nat.dvd_mul_left (cfi.sectSz id) (sectorOf cfi a id))
    (Nat.dvd_mul_right (cfi.sectSz id) n) (by rw [sectorOf]; omega)
  rw [sectorOf] at hend ⊢
  rw [FlashCfi.base]
  omega

end Geometry

/-- A sector is buffered, erased on the chip, and its next bytes go to `a`. -/
structure Loaded (cfi : FlashCfi) (dev : FlashDrv) (mem : Nat → UInt8) (a : Nat) : Prop where
  region : dev.regID < cfi.regs.length
  sector : cfi.base dev.regID dev.sectID + cfi.sectSz dev.regID ≤
    flashdrvRegStart cfi (dev.regID + 1)
  pos : cfi.base dev.regID dev.sectID + dev.buffPos = a
  pos_le : dev.buffPos ≤ cfi.sectSz dev.regID
  erased : Nor.erase dev.chip (cfi.base dev.regID dev.sectID) (cfi.sectSz dev.regID) = dev.chip
  content : patch dev.chip (cfi.base dev.regID dev.sectID) (cfi.sectSz dev.regID) dev.buff = mem

/-- Nothing is buffered and the chip holds the memory. -/
structure Idle (dev : FlashDrv) (mem : Nat → UInt8) : Prop where
  buffPos : dev.buffPos = 0
  regID : dev.regID = noID
  sectID : dev.sectID = noID
  chip : dev.chip = mem

/-- The driver stands for the memory. -/
def Coherent (cfi : FlashCfi) (dev : FlashDrv) (mem : Nat → UInt8) : Prop :=
  Idle dev mem ∨ ∃ a, Loaded cfi dev mem a ∧ 0 < dev.buffPos ∧ dev.buffPos < cfi.sectSz dev.regID

section Sync
variable {dev : FlashDrv} {mem : Nat → UInt8}

theorem Loaded.sync {a : Nat} (h : Loaded cfi dev mem a) (hpos : dev.buffPos ≠ 0) :
    ∃ dev', flashdrvSync cfi dev = (dev', EOK) ∧ Idle dev' mem := by
  refine ⟨_, if_neg hpos, rfl, rfl, rfl, ?_⟩
  have hpages := Nor.programPages_erase dev.chip dev.buff (cfi.base dev.regID dev.sectID)
    (FlashCfi.pageSz_dvd h.region)
  rw [h.erased, h.content] at hpages
  exact hpages

theorem Coherent.sync (h : Coherent cfi dev mem) :
    ∃ dev', flashdrvSync cfi dev = (dev', EOK) ∧ Idle dev' mem := by
  cases h with
  | inl hidle => exact ⟨dev, if_pos hidle.buffPos, hidle⟩
  | inr hbuf =>
      obtain ⟨a, hloaded, hpos, _⟩ := hbuf
      exact hloaded.sync (by omega)

theorem Loaded.fill {a : Nat} (h : Loaded cfi dev mem a) {chunk : List UInt8} (hchunk : chunk ≠ [])
    (hfits : dev.buffPos + chunk.length ≤ cfi.sectSz dev.regID) :
    ∃ dev', fillBuffer cfi dev (cfi.sectSz dev.regID) chunk = (dev', EOK) ∧
      Coherent cfi dev' (overlay mem a chunk) ∧
      (dev.buffPos + chunk.length = cfi.sectSz dev.regID → Idle dev' (overlay mem a chunk)) := by
  have hlen := List.length_pos_iff.mpr hchunk
  have hloaded : Loaded cfi
      { dev with buff := overlay dev.buff dev.buffPos chunk
                 buffPos := dev.buffPos + chunk.length }
      (overlay mem a chunk) (a + chunk.length) := by
    refine ⟨h.region, h.sector, ?_, hfits, h.erased, ?_⟩
    · rw [← h.pos, ← Nat.add_assoc]
    · rw [patch_overlay chunk hfits, h.content, h.pos]
  rw [fillBuffer]
  split
  · next hlt =>
    exact ⟨_, rfl, Or.inr ⟨_, hloaded, Nat.lt_add_left _ hlen, hlt⟩,
      fun hfull => absurd hlt (Nat.not_lt.mpr (Nat.le_of_eq hfull.symm))⟩
  · obtain ⟨dev', hsync, hidle⟩ := hloaded.sync (Nat.ne_of_gt (Nat.lt_add_left _ hlen))
    exact ⟨dev', hsync, Or.inl hidle, fun _ => hidle⟩

theorem flashdrvSectorErase_ok (dev : FlashDrv) {offs sectSz : Nat} (hle : offs ≤ cfi.flashSz)
    (hsz : hasEraseCmd sectSz = true) : flashdrvSectorErase cfi dev offs sectSz =
      ({ dev with chip := Nor.erase dev.chip offs sectSz }, EOK) := by
  rw [flashdrvSectorErase, if_neg (Nat.not_lt.mpr hle), if_pos hsz]

/-- Changing to a sector writes the buffered one back. -/
theorem Coherent.enter (h : Coherent cfi dev mem) {a id : Nat} (hid : InRegion cfi id a)
    (hother : id ≠ dev.regID ∨ sectorOf cfi a id ≠ dev.sectID) :
    ∃ dev', enterSector cfi dev a id = (dev', EOK) ∧ Loaded cfi dev' mem a ∧ dev'.regID = id ∧
      dev'.buffPos < cfi.sectSz id := by
  obtain ⟨hpos, hlt, hend⟩ := hid.sector
  obtain ⟨dev₁, hsync, hidle⟩ := h.sync
  have hflash := regStart_le cfi (id + 1)
  have htop := cfi.flashSz_lt
  have hsz := FlashCfi.hasEraseCmd hid.lt
  have hbase : (flashdrvRegStart cfi id + cfi.sectSz id * sectorOf cfi a id) % 2 ^ 32 =
      cfi.base id (sectorOf cfi a id) := by
    rw [FlashCfi.base] at hend ⊢
    rw [Nat.mul_comm (cfi.sectSz id), Nat.mod_eq_of_lt (by omega)]
  refine ⟨{ dev₁ with
      chip := Nor.erase dev₁.chip (cfi.base id (sectorOf cfi a id)) (cfi.sectSz id)
      buff := patch dev₁.buff 0 (cfi.sectSz id)
        (fun i => dev₁.chip (cfi.base id (sectorOf cfi a id) + i))
      regID := id
      sectID := sectorOf cfi a id
      buffPos := regionOfs cfi a id - sectorOf cfi a id * cfi.sectSz id }, ?_, ?_, rfl, hlt⟩
  · have hle : cfi.base id (sectorOf cfi a id) ≤ cfi.flashSz := by omega
    have hok : ¬EOK < 0 := by decide
    rw [enterSector, if_pos hother, hsync]
    refine (if_neg hok).trans ?_
    have herase := fun dev => flashdrvSectorErase_ok dev hle hsz
    simp only [loadSector, hbase, herase, if_neg hok]
  · refine ⟨hid.lt, hend, hpos, Nat.le_of_lt hlt, ?_, ?_⟩
    · exact Nor.erase_erase _ _ _
    · simp only [Nor.erase, patch_patch]
      rw [← hidle.chip]
      refine patch_same fun i hi => ?_
      rw [patch_inside (by omega), Nat.sub_zero]

end Sync

/-- When a write that is not empty does what it should in a state. -/
structure WriteFits (cfi : FlashCfi) (dev : FlashDrv) (offs : Nat) (data : List UInt8) : Prop where
  /-- The search is right where the write starts and where it enters a sector. -/
  found : ∀ a, offs ≤ a → a < offs + data.length → a = offs ∨ AtBorder cfi a → Found cfi a
  /-- In the buffered sector the write starts at the position kept for it. -/
  next : ∀ id, flashdrvRegionFind cfi offs = some id → dev.regID = id →
    dev.sectID = sectorOf cfi offs id → cfi.base dev.regID dev.sectID + dev.buffPos = offs

section Write
variable {dev : FlashDrv} {mem : Nat → UInt8}

/-- The sector of a fitting write gets into the buffer, or is there already, with
the position of the write. -/
theorem WriteFits.enter {offs id : Nat} {data : List UInt8} (hw : WriteFits cfi dev offs data)
    (h : Coherent cfi dev mem) (hfind : flashdrvRegionFind cfi offs = some id)
    (hid : InRegion cfi id offs) :
    ∃ dev', enterSector cfi dev offs id = (dev', EOK) ∧ Loaded cfi dev' mem offs ∧
      dev'.regID = id ∧ dev'.buffPos < cfi.sectSz id := by
  by_cases hother : id ≠ dev.regID ∨ sectorOf cfi offs id ≠ dev.sectID
  · exact h.enter hid hother
  · have hstay : enterSector cfi dev offs id = (dev, EOK) := if_neg hother
    simp only [ne_eq, not_or, not_not] at hother
    obtain ⟨hreg, hsect⟩ := hother
    cases h with
    | inl hidle =>
        have hlt := hid.lt
        have hle := cfi.regs_le
        have hno := hreg.trans hidle.regID
        simp only [noID] at hno
        omega
    | inr hbuf =>
        obtain ⟨a, hloaded, _, hfree⟩ := hbuf
        have hpos := hw.next id hfind hreg.symm hsect.symm
        exact ⟨dev, hstay, { hloaded with pos := hpos }, hreg.symm, hreg ▸ hfree⟩

/-- What is left of a write after a sector is full goes on in the next sector. -/
theorem WriteFits.rest {offs n : Nat} {data : List UInt8} (hw : WriteFits cfi dev offs data)
    {dev' : FlashDrv} {mem' : Nat → UInt8} (hidle : Idle dev' mem') (hn : 0 < n)
    (hborder : AtBorder cfi (offs + n)) :
    WriteFits cfi dev' (offs + n) (data.drop n) := by
  refine ⟨?_, ?_⟩
  · intro a hlo hhi hat
    rw [List.length_drop] at hhi
    refine hw.found a (by omega) (by omega) (Or.inr ?_)
    cases hat with
    | inl heq => exact heq ▸ hborder
    | inr hat => exact hat
  · intro id hfind hreg _
    have hlt := regionFind_lt hfind
    have hle := cfi.regs_le
    have hno := hreg.symm.trans hidle.regID
    simp only [noID] at hno
    omega

/-- One round of the loop that goes well. -/
theorem writeLoop_round {fuel offs id n : Nat} {data : List UInt8} {dev₁ dev₂ : FlashDrv}
    (hdata : data ≠ []) (hfind : flashdrvRegionFind cfi offs = some id)
    (henter : enterSector cfi dev offs id = (dev₁, EOK))
    (hn : min (cfi.sectSz id - dev₁.buffPos) data.length = n)
    (hfill : fillBuffer cfi dev₁ (cfi.sectSz id) (data.take n) = (dev₂, EOK))
    (hword : offs + n < 2 ^ 32) :
    writeLoop cfi (fuel + 1) dev offs data = writeLoop cfi fuel dev₂ (offs + n) (data.drop n) := by
  have hok : ¬EOK < 0 := by decide
  rw [writeLoop, if_neg hdata]
  simp only [hfind, henter, if_neg hok, hn, hfill, Nat.mod_eq_of_lt hword]

theorem writeLoop_spec (fuel : Nat) {offs : Nat} {data : List UInt8} (h : Coherent cfi dev mem)
    (hw : data ≠ [] → WriteFits cfi dev offs data) (hfits : offs + data.length ≤ cfi.flashSz)
    (hfuel : data.length < fuel) :
    ∃ dev', writeLoop cfi fuel dev offs data = (dev', some EOK) ∧
      Coherent cfi dev' (overlay mem offs data) := by
  induction fuel generalizing dev mem offs data with
  | zero => omega
  | succ fuel ih =>
      by_cases hdata : data = []
      · subst hdata
        refine ⟨dev, by rw [writeLoop, if_pos rfl], ?_⟩
        rw [overlay_nil]
        exact h
      · have hlen := List.length_pos_iff.mpr hdata
        have htop := cfi.flashSz_lt
        have hw := hw hdata
        obtain ⟨id, hfind, hid⟩ := hw.found offs (Nat.le_refl _) (by omega) (Or.inl rfl)
        obtain ⟨dev₁, henter, hloaded, hreg, hfree⟩ := hw.enter h hfind hid
        generalize hn : min (cfi.sectSz id - dev₁.buffPos) data.length = n
        have htake : (data.take n).length = n := List.length_take_of_le (by omega)
        have hchunk : data.take n ≠ [] := List.ne_nil_of_length_pos (by omega)
        obtain ⟨dev₂, hfill, hco, hfull⟩ := hloaded.fill hchunk (by rw [hreg]; omega)
        rw [hreg] at hfill hfull
        have hround : writeLoop cfi (fuel + 1) dev offs data =
            writeLoop cfi fuel dev₂ (offs + n) (data.drop n) :=
          writeLoop_round hdata hfind henter hn hfill (by omega)
        have hrest : data.drop n ≠ [] → WriteFits cfi dev₂ (offs + n) (data.drop n) := by
          intro hmore
          have hlt : n < data.length := by
            rw [ne_eq, List.drop_eq_nil_iff] at hmore
            omega
          have hend := hloaded.sector
          have hpos := hloaded.pos
          rw [hreg] at hend hpos
          refine hw.rest (hfull (by omega)) (by omega) ⟨id, dev₁.sectID + 1, hid.lt, ?_, ?_⟩
          · rw [FlashCfi.base] at hpos ⊢
            rw [Nat.succ_mul]
            omega
          · omega
        have hdrop : (data.drop n).length = data.length - n := List.length_drop
        obtain ⟨dev', hloop, hdev'⟩ := ih hco hrest (by omega) (by omega)
        refine ⟨dev', hround.trans hloop, ?_⟩
        rw [overlay_take_drop mem offs data (by omega)] at hdev'
        exact hdev'

theorem flashdrvWrite_spec {offs : Nat} {data : List UInt8} (h : Coherent cfi dev mem)
    (hw : data ≠ [] → WriteFits cfi dev offs data) (hfits : offs + data.length ≤ cfi.flashSz) :
    ∃ dev', flashdrvWrite cfi dev offs data = (dev', some (data.length : Int)) ∧
      Coherent cfi dev' (overlay mem offs data) := by
  have htop := cfi.flashSz_lt
  by_cases hdata : data = []
  · subst hdata
    refine ⟨dev, rfl, ?_⟩
    rw [overlay_nil]
    exact h
  · obtain ⟨dev', hloop, hdev'⟩ := writeLoop_spec (2 * data.length + 1) h hw hfits (by omega)
    refine ⟨dev', ?_, hdev'⟩
    rw [flashdrvWrite, if_neg hdata, Nat.mod_eq_of_lt (by omega), if_neg (Nat.not_lt.mpr hfits),
      hloop]
    rfl

end Write

inductive FlashCall
  | write (offs : Nat) (data : List UInt8)
  | sync

/-- The driver and the plain array that takes the same writes. -/
structure FlashSession where
  dev : FlashDrv
  content : Nat → UInt8

namespace FlashSession

def init (chip buff : Nat → UInt8) : FlashSession := ⟨flashdrvInit chip buff, chip⟩

def step (cfi : FlashCfi) (s : FlashSession) : FlashCall → FlashSession
  | .write offs data => ⟨(flashdrvWrite cfi s.dev offs data).1, overlay s.content offs data⟩
  | .sync => ⟨(flashdrvSync cfi s.dev).1, s.content⟩

/-- The call is answered as a plain array would: a write with its length. -/
def Accepts (cfi : FlashCfi) (s : FlashSession) : FlashCall → Prop
  | .write offs data => (flashdrvWrite cfi s.dev offs data).2 = some (data.length : Int)
  | .sync => (flashdrvSync cfi s.dev).2 = EOK

/-- The call is in range and meets the driver in a state it can handle. -/
def Fits (cfi : FlashCfi) (s : FlashSession) : FlashCall → Prop
  | .write offs data => offs + data.length ≤ cfi.flashSz ∧
      (data ≠ [] → WriteFits cfi s.dev offs data)
  | .sync => True

theorem Fits.step_coherent {s : FlashSession} {call : FlashCall} (hs : s.Fits cfi call)
    (h : Coherent cfi s.dev s.content) :
    s.Accepts cfi call ∧ Coherent cfi (s.step cfi call).dev (s.step cfi call).content := by
  cases call with
  | write offs data =>
      obtain ⟨dev', heq, hdev'⟩ := flashdrvWrite_spec h hs.2 hs.1
      simp only [Accepts, step, heq]
      exact ⟨trivial, hdev'⟩
  | sync =>
      obtain ⟨dev', heq, hidle⟩ := h.sync
      simp only [Accepts, step, heq]
      exact ⟨trivial, Or.inl hidle⟩

theorem coherent_of_run {chip buff : Nat → UInt8} {s : FlashSession}
    (hrun : Reachable (FlashSession.step cfi) (FlashSession.Fits cfi) (.init chip buff) s) :
    Coherent cfi s.dev s.content := by
  refine hrun.invariant (I := fun s => Coherent cfi s.dev s.content)
    (Or.inl ⟨rfl, rfl, rfl, rfl⟩) ?_
  intro s call hs hfits
  exact (hfits.step_coherent hs).2

end FlashSession

/-- In every run of fitting calls the next fitting call is accepted, and after a
synchronisation the chip holds the first content with all the writes over it. -/
theorem fitting_runs_write_through (cfi : FlashCfi) (chip buff : Nat → UInt8) (s : FlashSession)
    (hrun : Reachable (FlashSession.step cfi) (FlashSession.Fits cfi) (.init chip buff) s) :
    (∀ call, s.Fits cfi call → s.Accepts cfi call) ∧
      (flashdrvSync cfi s.dev).1.chip = s.content := by
  have h := FlashSession.coherent_of_run hrun
  obtain ⟨dev', hsync, hidle⟩ := h.sync
  exact ⟨fun call hfits => (hfits.step_coherent h).1, by rw [hsync, hidle.chip]⟩

def n25q128 : FlashCfi where
  chipSize := 0x18
  pageSize := 0x08
  regs := [⟨0xff, 0x100⟩]
  chipSize_lt := by decide
  pageSize_le := by decide
  regs_le := by decide
  sectSz_eq := by decide
  regs_sum := by decide

/-- A write over the border of two sectors. -/
theorem fitting_runs_write_through_border :
    let s := (FlashSession.init (fun _ => 0) (fun _ => 0)).step n25q128 (.write 0xffff [1, 2])
    (flashdrvSync n25q128 s.dev).1.chip = s.content := by
  intro s
  have hfits : FlashSession.Fits n25q128 (.init (fun _ => 0) (fun _ => 0))
      (.write 0xffff [1, 2]) := by
    refine ⟨by decide, fun _ => ⟨fun a _ ha _ => ?_, fun id hfind hreg _ => ?_⟩⟩
    · exact found_of_le_two (by decide) (Nat.lt_of_lt_of_le ha (by decide))
    · have hlt := regionFind_lt hfind
      rw [← hreg] at hlt
      exact absurd hlt (by decide)
  exact (fitting_runs_write_through n25q128 _ _ s (.step .init hfits)).2

/-- A chip whose third region starts behind the sizes of the first two. -/
def threeRegions : FlashCfi where
  chipSize := 20
  pageSize := 0x08
  regs := [⟨15, 0x10⟩, ⟨13, 0x100⟩, ⟨15, 0x10⟩]
  chipSize_lt := by decide
  pageSize_le := by decide
  regs_le := by decide
  sectSz_eq := by decide
  regs_sum := by decide

/-- A second write into the buffered sector is stored behind the first one, not at
its own offset; a write into the third region is refused. -/
theorem writes_misplaced_or_refused :
    (let s := [FlashCall.write 0 [1], .write 4 [2]].foldl (FlashSession.step n25q128)
      (.init (fun _ => 0) (fun _ => 0))
    (flashdrvSync n25q128 s.dev).1.chip 4 ≠ s.content 4 ∧
      (flashdrvSync n25q128 s.dev).1.chip 1 ≠ s.content 1) ∧
    (flashdrvWrite threeRegions (flashdrvInit (fun _ => 0) (fun _ => 0)) 0xf0000 [1]).2 =
      some (-EINVAL) := by
  decide +kernel

end Plo.Devices.Zynq
