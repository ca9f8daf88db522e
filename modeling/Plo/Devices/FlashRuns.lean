import Plo.Base.Run
import Plo.Devices.FlashWriteBack

/-!
Sequences of calls of the flash driver against a plain array of bytes. A write
is safe in a state when it does not go into a buffer that counts as written
back, does not enter the last sector past its start, and leaves behind no sector
that is all ones over a chip that is not. In a run of safe calls every write is
accepted, and the chip holds the array after a synchronisation.
-/
namespace Plo.Devices
variable {nor : NorInfo}

theorem chunkSz_spec (nor : NorInfo) (dstAddr size : Nat) :
    chunkSz nor dstAddr size ≤ size ∧
      dstAddr % nor.sectorSz + chunkSz nor dstAddr size ≤ nor.sectorSz ∧
      (chunkSz nor dstAddr size < size →
        dstAddr % nor.sectorSz + chunkSz nor dstAddr size = nor.sectorSz) := by
  have hofs := sectorOfs_lt nor dstAddr
  rw [← sectorOfs_eq]
  simp only [chunkSz]
  split <;> omega

theorem view_copyChunk (dev : NorDevice) (dstAddr : Nat) (data : List UInt8) (a : Nat) :
    (copyChunk nor dev dstAddr data).view nor a =
      if a / nor.sectorSz = dev.sectorPrevAddr / nor.sectorSz then
        overlay dev.sectorBuf (sectorOfs nor dstAddr) data (a % nor.sectorSz)
      else dev.chip a := rfl

theorem Coherent.put {dev : NorDevice} {mem : Nat → UInt8} (h : Coherent nor dev mem)
    {dstAddr : Nat} (data : List UInt8)
    (hsector : dev.sectorPrevAddr / nor.sectorSz = dstAddr / nor.sectorSz)
    (hdirty : dev.sectorPrevAddr ≠ dev.sectorSyncAddr)
    (hfits : dstAddr % nor.sectorSz + data.length ≤ nor.sectorSz) :
    Coherent nor (copyChunk nor dev dstAddr data) (overlay mem dstAddr data) := by
  refine ⟨h.active, h.addr, ?_, fun heq => absurd heq hdirty⟩
  intro a ha
  have hmem := h.view a ha
  have hdst := Nat.div_add_mod' dstAddr nor.sectorSz
  have hdiv := Nat.div_add_mod' a nor.sectorSz
  rw [NorDevice.view] at hmem
  rw [view_copyChunk]
  by_cases hin : a / nor.sectorSz = dev.sectorPrevAddr / nor.sectorSz
  · rw [if_pos hin] at hmem ⊢
    rw [hin, hsector] at hdiv
    have hle : dstAddr % nor.sectorSz ≤ a % nor.sectorSz ↔ dstAddr ≤ a := by omega
    have hsub : a % nor.sectorSz - dstAddr % nor.sectorSz = a - dstAddr := by omega
    simp only [overlay, sectorOfs_eq, hle, hsub, hmem]
  · rw [if_neg hin] at hmem ⊢
    have hout := mt (sector_eq_iff nor a _).mpr hin
    rw [hsector] at hout
    rw [hmem]
    by_cases hlt : a < dstAddr
    · exact (overlay_of_lt _ _ _ hlt).symm
    · exact (overlay_of_ge _ _ _ (by omega)).symm

/-- When a write that is not empty does what it should in a state. -/
structure WriteSafe (nor : NorInfo) (dev : NorDevice) (dstAddr : Nat) (data : List UInt8) :
    Prop where
  /-- The buffered sector does not count as written back. -/
  stay : dstAddr / nor.sectorSz = dev.sectorPrevAddr / nor.sectorSz →
    dev.sectorPrevAddr ≠ dev.sectorSyncAddr
  /-- Another sector is entered where a whole sector is left on the chip, and the
  buffer can be written back first. -/
  enter : dstAddr / nor.sectorSz ≠ dev.sectorPrevAddr / nor.sectorSz →
    dstAddr + nor.sectorSz ≤ nor.totalSz ∧ CanFlush nor dev
  /-- A sector the write leaves all ones is already erased on the chip. -/
  pass : ∀ sector, dstAddr / nor.sectorSz ≤ sector →
    sector < (dstAddr + data.length) / nor.sectorSz →
    ErasedOn nor (overlay (dev.view nor) dstAddr data) sector →
    ErasedOn nor (if dstAddr / nor.sectorSz = dev.sectorPrevAddr / nor.sectorSz then dev.chip
      else dev.view nor) sector

theorem ErasedOn.congr {mem mem' : Nat → UInt8} {sector : Nat} (h : ErasedOn nor mem sector)
    (heq : ∀ a, a / nor.sectorSz = sector → mem a = mem' a) : ErasedOn nor mem' sector := by
  intro a ha
  rw [← heq a ha]
  exact h a ha

theorem lt_totalSz_of_sector {a sector last : Nat} (ha : a / nor.sectorSz = sector)
    (hlt : sector < last / nor.sectorSz) (hlast : last ≤ nor.totalSz) : a < nor.totalSz := by
  rw [← ha] at hlt
  exact Nat.lt_of_lt_of_le (Nat.lt_of_div_lt_div hlt) hlast

/-- Whether the write stays in the buffered sector or enters another, its sector
is then in the buffer, and what it leaves all ones is erased on the chip. -/
theorem WriteSafe.first {dev : NorDevice} {mem : Nat → UInt8} {dstAddr : Nat}
    {data : List UInt8} (h : Coherent nor dev mem) (hw : WriteSafe nor dev dstAddr data)
    (hfits : dstAddr + data.length ≤ nor.totalSz) :
    ∃ dev' res, bufferSync nor dev dstAddr false = (dev', res) ∧ 0 ≤ res ∧
      Coherent nor dev' mem ∧ dev'.sectorPrevAddr ≠ dev'.sectorSyncAddr ∧
      dev'.sectorPrevAddr / nor.sectorSz = dstAddr / nor.sectorSz ∧
      ∀ sector, dstAddr / nor.sectorSz ≤ sector →
        sector < (dstAddr + data.length) / nor.sectorSz →
        ErasedOn nor (overlay mem dstAddr data) sector →
        ErasedOn nor (if sector = dstAddr / nor.sectorSz then dev'.chip else mem) sector := by
  have hpass : ∀ sector, dstAddr / nor.sectorSz ≤ sector →
      sector < (dstAddr + data.length) / nor.sectorSz →
      ErasedOn nor (overlay mem dstAddr data) sector →
      ErasedOn nor (if dstAddr / nor.sectorSz = dev.sectorPrevAddr / nor.sectorSz then dev.chip
        else dev.view nor) sector := by
    intro sector hlo hhi herased
    refine hw.pass sector hlo hhi (herased.congr ?_)
    intro a ha
    exact overlay_congr _ _ (h.view a (lt_totalSz_of_sector ha hhi hfits)).symm
  by_cases hsector : dstAddr / nor.sectorSz = dev.sectorPrevAddr / nor.sectorSz
  · refine ⟨dev, 0, bufferSync_stay false hsector, Int.le_refl 0, h, hw.stay hsector,
      hsector.symm, ?_⟩
    intro sector hlo hhi herased
    have hchip := hpass sector hlo hhi herased
    rw [if_pos hsector] at hchip
    split
    · exact hchip
    · next hne =>
      refine hchip.congr ?_
      intro a ha
      rw [← h.view a (lt_totalSz_of_sector ha hhi hfits), NorDevice.view, if_neg]
      rw [ha, ← hsector]
      exact hne
  · obtain ⟨dev', res, hsync, hres, hc, hprev, hsynced, hchip⟩ :=
      bufferSync_enter h hsector (hw.enter hsector).1 (hw.enter hsector).2
    refine ⟨dev', res, hsync, hres, hc, hprev ▸ hsynced.symm, by rw [hprev], ?_⟩
    intro sector hlo hhi herased
    have hview := hpass sector hlo hhi herased
    rw [if_neg hsector] at hview
    split
    · refine hview.congr ?_
      intro a ha
      have hlt := lt_totalSz_of_sector ha hhi hfits
      rw [h.view a hlt, hchip a hlt]
    · exact hview.congr (fun a ha => h.view a (lt_totalSz_of_sector ha hhi hfits))

theorem writeLoop_step {dev dev' : NorDevice} {dstAddr : Nat} {data : List UInt8} {res : Int}
    (hdata : data ≠ []) (hsync : bufferSync nor dev dstAddr false = (dev', res)) (hres : 0 ≤ res)
    (hfits : dstAddr + data.length ≤ nor.totalSz) :
    writeLoop nor dev dstAddr data =
      writeLoop nor
        (copyChunk nor dev' dstAddr (data.take (chunkSz nor dstAddr data.length)))
        (dstAddr + chunkSz nor dstAddr data.length)
        (data.drop (chunkSz nor dstAddr data.length)) := by
  have hchunk := (chunkSz_spec nor dstAddr data.length).1
  have htop := nor.totalSz_lt
  have hmod : (dstAddr + chunkSz nor dstAddr data.length) % 2 ^ 32 =
      dstAddr + chunkSz nor dstAddr data.length := Nat.mod_eq_of_lt (by omega)
  rw [writeLoop, dif_neg hdata]
  simp only [hsync, if_neg (Int.not_lt.mpr hres), hmod]

theorem overlay_take_chunk (mem : Nat → UInt8) (dstAddr : Nat) (data : List UInt8) {a : Nat}
    (ha : a / nor.sectorSz = dstAddr / nor.sectorSz) :
    overlay mem dstAddr (data.take (chunkSz nor dstAddr data.length)) a =
      overlay mem dstAddr data a := by
  obtain ⟨hle, _, hfull⟩ := chunkSz_spec nor dstAddr data.length
  generalize chunkSz nor dstAddr data.length = chunk at hle hfull ⊢
  by_cases hlt : chunk < data.length
  · have hdst := Nat.div_add_mod' dstAddr nor.sectorSz
    have hin := (sector_eq_iff nor a _).mp ha
    have hend : a < dstAddr + chunk := by
      have := hfull hlt
      omega
    rw [← overlay_take_drop mem dstAddr data hle, overlay_of_lt _ _ _ hend]
  · rw [List.take_of_length_le (by omega)]

theorem canFlush_chunk {dev : NorDevice} {mem : Nat → UInt8} {dstAddr : Nat} {data : List UInt8}
    (h : Coherent nor dev (overlay mem dstAddr (data.take (chunkSz nor dstAddr data.length))))
    (hsector : dev.sectorPrevAddr / nor.sectorSz = dstAddr / nor.sectorSz)
    (hfits : dstAddr + data.length ≤ nor.totalSz)
    (hleaves : dstAddr / nor.sectorSz < (dstAddr + data.length) / nor.sectorSz)
    (hpass : ErasedOn nor (overlay mem dstAddr data) (dstAddr / nor.sectorSz) →
      ErasedOn nor dev.chip (dstAddr / nor.sectorSz)) :
    CanFlush nor dev := by
  intro _ herased
  rw [hsector] at herased ⊢
  refine hpass (herased.congr ?_)
  intro a ha
  rw [h.view a (lt_totalSz_of_sector ha hleaves hfits)]
  exact overlay_take_chunk mem dstAddr data ha

theorem WriteSafe.rest {dev : NorDevice} {mem : Nat → UInt8} {dstAddr : Nat} {data : List UInt8}
    (hmore : chunkSz nor dstAddr data.length < data.length)
    (h : Coherent nor dev (overlay mem dstAddr (data.take (chunkSz nor dstAddr data.length))))
    (hsector : dev.sectorPrevAddr / nor.sectorSz = dstAddr / nor.sectorSz)
    (hfits : dstAddr + data.length ≤ nor.totalSz)
    (hpass : ∀ sector, dstAddr / nor.sectorSz ≤ sector →
      sector < (dstAddr + data.length) / nor.sectorSz →
      ErasedOn nor (overlay mem dstAddr data) sector →
      ErasedOn nor (if sector = dstAddr / nor.sectorSz then dev.chip else mem) sector) :
    WriteSafe nor dev (dstAddr + chunkSz nor dstAddr data.length)
      (data.drop (chunkSz nor dstAddr data.length)) := by
  have hfull := (chunkSz_spec nor dstAddr data.length).2.2 hmore
  have hflushed := fun hleaves => canFlush_chunk h hsector hfits hleaves
  generalize hchunk : chunkSz nor dstAddr data.length = chunk at hmore h hfull ⊢
  have hpos := nor.sectorSz_pos
  have hdst := Nat.div_add_mod' dstAddr nor.sectorSz
  have hend : dstAddr + chunk = (dstAddr / nor.sectorSz + 1) * nor.sectorSz := by
    rw [Nat.add_mul, Nat.one_mul]
    omega
  have hnext : (dstAddr + chunk) / nor.sectorSz = dstAddr / nor.sectorSz + 1 := by
    rw [hend, Nat.mul_div_cancel _ hpos]
  have hsum : dstAddr + chunk + (data.drop chunk).length = dstAddr + data.length := by
    rw [List.length_drop]
    omega
  have hleaves : dstAddr / nor.sectorSz < (dstAddr + data.length) / nor.sectorSz := by
    have hmono : (dstAddr + chunk) / nor.sectorSz ≤ (dstAddr + data.length) / nor.sectorSz :=
      Nat.div_le_div_right (by omega)
    omega
  refine ⟨fun heq => ?_, fun _ => ⟨?_, ?_⟩, ?_⟩
  · rw [hnext, hsector] at heq
    omega
  · exact add_le_of_dvd_of_lt (hend ▸ Nat.dvd_mul_left _ _) nor.sectorSz_dvd (by omega)
  · refine hflushed hleaves (fun herased => ?_)
    have hchip := hpass _ (Nat.le_refl _) hleaves herased
    rwa [if_pos rfl] at hchip
  · intro sector hlo hhi herased
    rw [hnext] at hlo
    rw [hsum] at hhi
    have hne : (dstAddr + chunk) / nor.sectorSz ≠ dev.sectorPrevAddr / nor.sectorSz := by
      rw [hnext, hsector]
      omega
    have hall : ErasedOn nor (overlay mem dstAddr data) sector := by
      refine herased.congr ?_
      intro a ha
      rw [← overlay_take_drop mem dstAddr data (Nat.le_of_lt hmore)]
      exact overlay_congr _ _ (h.view a (lt_totalSz_of_sector ha hhi hfits))
    have hmem := hpass sector (by omega) hhi hall
    rw [if_neg (by omega : sector ≠ dstAddr / nor.sectorSz)] at hmem
    rw [if_neg hne]
    refine hmem.congr ?_
    intro a ha
    rw [h.view a (lt_totalSz_of_sector ha hhi hfits), overlay_of_ge _ _ _ ?_]
    rw [List.length_take_of_le (Nat.le_of_lt hmore)]
    have hge := ((sector_eq_iff nor a sector).mp ha).1
    have hmul : (dstAddr / nor.sectorSz + 1) * nor.sectorSz ≤ sector * nor.sectorSz :=
      Nat.mul_le_mul_right _ hlo
    omega

theorem writeLoop_spec {dev : NorDevice} {mem : Nat → UInt8} {dstAddr : Nat} {data : List UInt8}
    (h : Coherent nor dev mem) (hw : WriteSafe nor dev dstAddr data) (hdata : data ≠ [])
    (hfits : dstAddr + data.length ≤ nor.totalSz) :
    ∃ dev', writeLoop nor dev dstAddr data = (dev', dstAddr + data.length, EOK) ∧
      Coherent nor dev' (overlay mem dstAddr data) ∧
      ((dstAddr + data.length) / nor.sectorSz ≠ dev'.sectorPrevAddr / nor.sectorSz →
        CanFlush nor dev') := by
  induction hn : data.length using Nat.strong_induction_on generalizing dev mem dstAddr data with
  | _ n ih =>
      subst hn
      obtain ⟨dev₀, res, hsync, hres, hc₀, hdirty, hsector, hpass⟩ := hw.first h hfits
      have hstep := writeLoop_step hdata hsync hres hfits
      have hspec := chunkSz_spec nor dstAddr data.length
      have hlen : (data.take (chunkSz nor dstAddr data.length)).length =
          chunkSz nor dstAddr data.length := List.length_take_of_le hspec.1
      have hc := hc₀.put (data.take (chunkSz nor dstAddr data.length)) hsector hdirty
        (by rw [hlen]; exact hspec.2.1)
      have hpos := chunkSz_pos nor dstAddr (List.length_pos_iff.mpr hdata)
      by_cases hmore : chunkSz nor dstAddr data.length < data.length
      · have hrest : data.drop (chunkSz nor dstAddr data.length) ≠ [] := by
          rw [ne_eq, List.drop_eq_nil_iff]
          omega
        have hsafe := WriteSafe.rest hmore hc hsector hfits hpass
        have hsum : dstAddr + chunkSz nor dstAddr data.length +
            (data.drop (chunkSz nor dstAddr data.length)).length = dstAddr + data.length := by
          rw [List.length_drop]
          omega
        obtain ⟨dev', hloop, hc', hlast⟩ := ih _ (by rw [List.length_drop]; omega) hc hsafe hrest
          (by rw [hsum]; exact hfits) rfl
        rw [hsum] at hloop hlast
        rw [overlay_take_drop mem dstAddr data hspec.1] at hc'
        exact ⟨dev', hstep.trans hloop, hc', hlast⟩
      · have hall : chunkSz nor dstAddr data.length = data.length := by omega
        refine ⟨copyChunk nor dev₀ dstAddr (data.take (chunkSz nor dstAddr data.length)),
          ?_, ?_, ?_⟩
        · rw [hstep, hall, List.drop_length, writeLoop, dif_pos rfl]
        · conv at hc => arg 3; rw [hall, List.take_length]
          exact hc
        · intro hleaves
          have hlt : dstAddr / nor.sectorSz < (dstAddr + data.length) / nor.sectorSz := by
            refine Nat.lt_of_le_of_ne (Nat.div_le_div_right (Nat.le_add_right _ _)) ?_
            rw [← hsector]
            exact hleaves.symm
          refine canFlush_chunk hc hsector hfits hlt (fun herased => ?_)
          have hchip := hpass _ (Nat.le_refl _) hlt herased
          rwa [if_pos rfl] at hchip

theorem flashdrvWrite_spec {dev : NorDevice} {mem : Nat → UInt8} {dstAddr : Nat}
    {data : List UInt8} (h : Coherent nor dev mem)
    (hfits : dstAddr + data.length ≤ nor.totalSz)
    (hw : data ≠ [] → WriteSafe nor dev dstAddr data) :
    ∃ dev', flashdrvWrite nor dev dstAddr data = (dev', (data.length : Int)) ∧
      Coherent nor dev' (overlay mem dstAddr data) := by
  have htop := nor.totalSz_lt
  have hmod : (dstAddr + data.length) % 2 ^ 32 = dstAddr + data.length :=
    Nat.mod_eq_of_lt (by omega)
  simp only [flashdrvWrite, h.active, Bool.not_true, Bool.false_eq_true, if_false, hmod,
    nor.slFlashSz_eq, gt_iff_lt, if_neg (Nat.not_lt.mpr hfits)]
  by_cases hdata : data = []
  · subst hdata
    refine ⟨dev, rfl, ?_⟩
    rw [overlay_nil]
    exact h
  · obtain ⟨dev₁, hloop, hc, hlast⟩ := writeLoop_spec h (hw hdata) hdata hfits
    obtain ⟨dev₂, res, hsync, hres, hc'⟩ := bufferSync_last hc hlast
    refine ⟨dev₂, ?_, hc'⟩
    simp only [if_neg hdata, hloop, EOK, Int.lt_irrefl, if_false, hsync,
      if_neg (Int.not_lt.mpr hres)]

inductive FlashCall
  | write (dstAddr : Nat) (data : List UInt8)
  | sync

/-- The driver and the plain array that takes the same writes. -/
structure FlashSession where
  dev : NorDevice
  content : Nat → UInt8

namespace FlashSession

def init (chip : Nat → UInt8) : FlashSession := ⟨norDeviceInit chip, chip⟩

def step (nor : NorInfo) (s : FlashSession) : FlashCall → FlashSession
  | .write dstAddr data =>
    ⟨(flashdrvWrite nor s.dev dstAddr data).1, overlay s.content dstAddr data⟩
  | .sync => ⟨(flashdrvSync nor s.dev).1, s.content⟩

/-- The call is answered as a plain array would: a write with its length. -/
def Accepts (nor : NorInfo) (s : FlashSession) : FlashCall → Prop
  | .write dstAddr data => (flashdrvWrite nor s.dev dstAddr data).2 = data.length
  | .sync => 0 ≤ (flashdrvSync nor s.dev).2

/-- The call is in range and meets the driver in a state it can handle. -/
def Safe (nor : NorInfo) (s : FlashSession) : FlashCall → Prop
  | .write dstAddr data => dstAddr + data.length ≤ nor.totalSz ∧
      (data ≠ [] → WriteSafe nor s.dev dstAddr data)
  | .sync => CanFlush nor s.dev

theorem coherent_init (nor : NorInfo) (chip : Nat → UInt8) :
    Coherent nor (init chip).dev (init chip).content := by
  refine ⟨rfl, Or.inl ⟨rfl, rfl⟩, ?_, fun _ _ _ => rfl⟩
  intro a ha
  exact if_neg (sector_noAddr_ne nor ha)

theorem Safe.step_coherent {s : FlashSession} {call : FlashCall} (hs : s.Safe nor call)
    (h : Coherent nor s.dev s.content) :
    s.Accepts nor call ∧ Coherent nor (s.step nor call).dev (s.step nor call).content := by
  cases call with
  | write dstAddr data =>
      obtain ⟨dev', heq, hc⟩ := flashdrvWrite_spec h hs.1 hs.2
      simp only [Accepts, step, heq]
      exact ⟨trivial, hc⟩
  | sync =>
      obtain ⟨dev', res, heq, hres, hc, _⟩ := flashdrvSync_spec h hs
      simp only [Accepts, step, heq]
      exact ⟨hres, hc⟩

theorem coherent_of_run {chip : Nat → UInt8} {s : FlashSession}
    (hrun : Reachable (FlashSession.step nor) (FlashSession.Safe nor) (.init chip) s) :
    Coherent nor s.dev s.content := by
  refine hrun.invariant (I := fun s => Coherent nor s.dev s.content) (coherent_init nor chip) ?_
  intro s call hc hsafe
  exact (hsafe.step_coherent hc).2

end FlashSession

def w25q16 : NorInfo where
  totalSz := 2 * 1024 * 1024
  pageSz := 0x100
  sectorSz := 0x1000
  sectorSz_le := Nat.le_refl _
  sectorSz_pow := ⟨12, rfl⟩
  pageSz_pos := by decide
  pageSz_dvd := by decide
  sectorSz_dvd := by decide
  totalSz_kib := by decide
  totalSz_lt := by decide

/-- In every run of safe calls the next safe call is accepted, and after a
synchronisation the chip holds the first content with all the writes over it,
exactly when the buffer can be written back. -/
theorem safe_runs_write_through (nor : NorInfo) (chip : Nat → UInt8) (s : FlashSession)
    (hrun : Reachable (FlashSession.step nor) (FlashSession.Safe nor) (.init chip) s) :
    (∀ call, s.Safe nor call → s.Accepts nor call) ∧
      ((∀ a, a < nor.totalSz → (flashdrvSync nor s.dev).1.chip a = s.content a) ↔
        s.Safe nor .sync) := by
  have h := FlashSession.coherent_of_run hrun
  refine ⟨fun call hsafe => (hsafe.step_coherent h).1, ?_, ?_⟩
  · intro hchip
    by_contra hflush
    obtain ⟨a, ha, hne⟩ := flashdrvSync_stale h hflush
    exact hne (hchip a ha)
  · intro hflush
    obtain ⟨dev', res, heq, _, hc, hprev, hsynced⟩ := flashdrvSync_spec h hflush
    rw [heq]
    exact hc.clean (hprev.trans hsynced.symm)

/-- A write over the border of two sectors of an erased chip. -/
theorem safe_runs_write_through_border :
    let s := (FlashSession.init (fun _ => NOR_ERASED_STATE)).step w25q16 (.write 0xfff [1, 2])
    s.Safe w25q16 .sync ∧
      ∀ a, a < w25q16.totalSz → (flashdrvSync w25q16 s.dev).1.chip a = s.content a := by
  intro s
  have hwrite : FlashSession.Safe w25q16 (.init (fun _ => NOR_ERASED_STATE))
      (.write 0xfff [1, 2]) := by
    refine ⟨by decide, fun _ => ⟨fun h => absurd h (by decide), fun _ => ⟨by decide, ?_⟩, ?_⟩⟩
    · exact fun hdirty => absurd rfl hdirty
    · intro sector _ hhi herased
      have hzero : sector = 0 := Nat.lt_one_iff.mp hhi
      exact absurd (herased 0xfff hzero.symm) (by decide)
  have hsync : s.Safe w25q16 .sync := fun _ herased =>
    absurd (herased 0x1000 (by decide +kernel)) (by decide +kernel)
  exact ⟨hsync, (safe_runs_write_through w25q16 _ s (.step .init hwrite)).2.mpr hsync⟩

/-- A byte written, synchronised and written again stays in the buffer; a byte
set to ones in a sector of ones stays on the chip; a byte in the middle of the
last sector is refused. -/
theorem writes_lost_or_refused :
    (let s := [FlashCall.write 0 [0], .sync, .write 0 [1]].foldl (FlashSession.step w25q16)
      (.init (fun _ => NOR_ERASED_STATE))
    (flashdrvSync w25q16 s.dev).1.chip 0 ≠ s.content 0) ∧
    (let s := (FlashSession.init (fun a => if a = 0 then 0 else NOR_ERASED_STATE)).step w25q16
      (.write 0 [NOR_ERASED_STATE])
    (flashdrvSync w25q16 s.dev).1.chip 0 ≠ s.content 0) ∧
    (flashdrvWrite w25q16 (norDeviceInit (fun _ => NOR_ERASED_STATE)) 0x1ff001 [0]).2 = - EIO := by
  decide +kernel

end Plo.Devices
